import Manuscript.Proofs.Directive
import Manuscript.Proofs.Footnotes.Steps
import Manuscript.Proofs.Reserved.Document

namespace Manuscript

open Event Footnotes Glyph Pending Reader

inductive Element.ParagraphOf (p : Line → Prop) : Element → Prop
  | intro {attributes : Attributes} {lines : List Line} :
      (∀ s ∈ sequencesOf attributes.entries, Everywhere (note? · = none) s) →
      (∀ line ∈ lines, p line) → ParagraphOf p (.paragraph attributes lines)

def TextLine (line : Line) : Prop := ∀ x ∈ line, x.isText = true

structure Draft.NoteFree (draft : Draft) : Prop where
  elements : Everywhere (note? · = none) draft.elements
  notes : ∀ note ∈ draft.notes, Everywhere (note? · = none) note.content

structure Collected (elements outcomes : List Element) (draft : Draft) : Prop where
  filled : Filled note? id elements outcomes draft.elements
  notes : draft.notes = kept (gather note? elements)
  referred : ∀ o ∈ outcomes, ∃ id reference duplicate, o = .footnoteReference id reference duplicate
  numbered : draft.notes.length ≤ Int32.maxValue.toInt →
    Numbered [] (gather note? elements) outcomes

namespace Footnotes

variable {f f' : Footnotes} {note : Note} {footnotes : List Note}
  {elements outcomes : List Element}

theorem collected_of_replace {warnings : List Warning} {draft : Draft}
    (h : (replace elements).run ⟨[], warnings⟩ = (draft.elements, f'))
    (hnotes : draft.notes = f'.notes) : ∃ outcomes, Collected elements outcomes draft := by
  rw [replace_eq, StateT.run_map] at h
  cases hrun : ((gather note? elements).mapM collect).run ⟨[], warnings⟩ with
  | mk outcomes f₁ =>
    rw [hrun] at h
    obtain ⟨helements, rfl⟩ := Prod.mk.inj h
    obtain ⟨hlength, hreferred, hkept⟩ := of_run_mapM_collect hrun
    rw [List.nil_append] at hkept
    refine ⟨outcomes, ?_, hnotes.trans hkept, hreferred, fun few => ?_⟩
    · exact helements ▸ filled_run_rebuild hlength
    · rw [hnotes, hkept] at few
      obtain ⟨others, hothers, hnumbered⟩ := numbered_mapM_collect (f := ⟨[], warnings⟩) few
      rw [hrun] at hothers
      obtain ⟨rfl, -⟩ := Prod.mk.inj hothers
      exact hnumbered

theorem everywhere_iff_noteless (h : ∀ x, Visited x elements → x.held = []) :
    Everywhere (note? · = none) elements ↔ Noteless elements := by
  rw [Noteless, gather_eq_nil_iff, everywhere_iff_visited]
  refine forall₂_congr fun x hx => and_iff_left fun s hs => ?_
  rw [h x hx] at hs
  cases hs

theorem gather_of_no_notes (h : ∀ x ∈ elements, note? x = none) :
    gather note? elements = gather note? (elements.flatMap Element.children).flatten := by
  induction elements with
  | nil => rfl
  | cons x rest ih =>
    obtain ⟨hx, hrest⟩ := List.forall_mem_cons.mp h
    rw [gather_cons, ih hrest, List.flatMap_cons, List.flatten_append, gather_append,
      Element.gather, hx, gather_flatten note? x.children]

theorem note?_withChildren_iff (x : Element) (sequences : List (List Element)) :
    note? (x.withChildren sequences) = none ↔ note? x = none := by
  refine ⟨fun h => ?_, note?_withChildren x sequences⟩
  cases x
  case footnote => rcases sequences with _ | ⟨_, _ | ⟨_, _⟩⟩ <;> cases h
  all_goals rfl

theorem around_of_held (h : ∀ x, Visited x elements → ∀ s ∈ x.held, Everywhere (note? · = none) s) :
    Around (note? · = none) note? elements := by
  induction elements using sequence_induction with
  | step elements ih =>
    refine .intro (fun x hx hnone => ⟨hnone, h x (.here hx)⟩) fun x hx _ s hs => ?_
    exact ih x hx s hs fun y hy => h y (.inside hx hs hy)

end Footnotes

namespace Element.ParagraphOf

variable {p : Line → Prop} {x : Element} {elements : List Element}

theorem note?_eq_none (h : x.ParagraphOf p) : note? x = none := by
  cases h
  rfl

theorem lines (h : x.ParagraphOf p) : ∀ line ∈ x.children, p line := by
  cases h with
  | intro _ hlines => exact hlines

theorem held (h : x.ParagraphOf p) : ∀ s ∈ x.held, Everywhere (note? · = none) s := by
  cases h with
  | intro hheld _ => exact hheld

theorem of_visited (h : ∀ x ∈ elements, x.ParagraphOf (Everywhere Element.Inline))
    (hx : Visited x elements) : x.ParagraphOf (Everywhere Element.Inline) ∨
      x.Throughout Element.Inline := by
  cases hx with
  | here hmem => exact .inl (h x hmem)
  | inside hy hs hx => exact .inr (throughout_of_visited ((h _ hy).lines _ hs) hx)

end Element.ParagraphOf

namespace Footnotes

variable {elements outcomes : List Element} {draft : Draft}

theorem inline_content_of_mem (h : ∀ x ∈ elements, x.ParagraphOf (Everywhere Element.Inline))
    {note : Note} (hnote : note ∈ gather note? elements) :
    Everywhere Element.Inline note.content := by
  obtain ⟨x, hx, hfound⟩ := visited_of_mem_gather _ hnote
  rcases Element.ParagraphOf.of_visited h hx with hparagraph | hinline
  · rw [hparagraph.note?_eq_none] at hfound
    cases hfound
  · cases x
    case footnote => cases hfound; exact hinline.2.1 _ List.mem_cons_self
    all_goals cases hfound

theorem noteFree_iff_of_collected (h : ∀ x ∈ elements, x.ParagraphOf (Everywhere Element.Inline))
    (hcollected : Collected elements outcomes draft) :
    Everywhere (note? · = none) draft.elements ∧
      (draft.NoteFree ↔ Unnested (elements.flatMap Element.children).flatten) := by
  have helements : Everywhere (note? · = none) draft.elements := by
    refine (hcollected.filled.everywhere_iff (fun _ => Iff.rfl) note?_withChildren_iff).mpr
      ⟨around_of_held fun x hx => ?_, fun o ho => ?_⟩
    · rcases Element.ParagraphOf.of_visited h hx with hparagraph | hinline
      · exact hparagraph.held
      · rw [show x.held = [] from hinline.1]
        exact fun s hs => absurd hs List.not_mem_nil
    · obtain ⟨id, reference, duplicate, rfl⟩ := hcollected.referred o ho
      exact (throughout_of_leaf rfl rfl).mpr rfl
  have hcontent (note : Note) (hnote : note ∈ gather note? elements) :
      Everywhere (note? · = none) note.content ↔ Noteless note.content :=
    everywhere_iff_noteless fun x hx => (throughout_of_visited (inline_content_of_mem h hnote) hx).1
  refine ⟨helements, ?_⟩
  rw [Unnested, ← gather_of_no_notes fun x hx => (h x hx).note?_eq_none]
  constructor
  · intro hfree note hnote
    by_cases hempty : note.content = []
    · rw [hempty]
      exact noteless_nil
    · refine (hcontent note hnote).mp (hfree.notes note ?_)
      rw [hcollected.notes, kept]
      exact List.mem_filter.mpr ⟨hnote, by simpa using hempty⟩
  · intro hunnested
    refine ⟨helements, fun note hnote => ?_⟩
    rw [hcollected.notes, kept] at hnote
    have hmem := (List.mem_filter.mp hnote).1
    exact (hcontent note hmem).mpr (hunnested note hmem)

end Footnotes

namespace Pass

structure Left (substituted : List Element) (records : List Record) : Prop where
  paragraphs : ∀ x ∈ substituted, x.ParagraphOf (Everywhere Element.Inline)
  lines : substituted.flatMap Element.children = linesAfter .splitLines records
  unnested : (∀ record ∈ records, record.step = .macros → Unnested record.lines.flatten) →
    ∀ record ∈ records, Unnested record.lines.flatten

namespace Left

variable {xs ys : List Element} {first second : List Record}

theorem nil : Left [] [] where
  paragraphs _ hx := absurd hx List.not_mem_nil
  lines := rfl
  unnested _ _ hr := absurd hr List.not_mem_nil

theorem append (hxs : Left xs first) (hys : Left ys second) : Left (xs ++ ys) (first ++ second) where
  paragraphs := List.forall_mem_append.mpr ⟨hxs.paragraphs, hys.paragraphs⟩
  lines := by rw [List.flatMap_append, hxs.lines, hys.lines, linesAfter_append]
  unnested h :=
    have ⟨hfirst, hsecond⟩ := List.forall_mem_append.mp h
    List.forall_mem_append.mpr ⟨hxs.unnested hfirst, hys.unnested hsecond⟩

end Left

variable {lines after : List Line} {s s' : PassState}

theorem inline_of_textLine {line : Line} (h : TextLine line) : Everywhere Element.Inline line := by
  refine everywhere_iff.mpr fun x hx => ?_
  obtain ⟨t, rfl⟩ := eq_text_of_isText (h x hx)
  exact throughout_text.mpr (inline_text t)

theorem noteless_of_textLine {line : Line} (h : TextLine line) : Noteless line := by
  refine noteless_iff.mpr fun x hx => ?_
  obtain ⟨t, rfl⟩ := eq_text_of_isText (h x hx)
  rfl

theorem unnested_of_textLines (h : ∀ line ∈ lines, TextLine line) : Unnested lines.flatten := by
  have hnone : gather note? lines.flatten = [] := by
    rw [gather_flatten]
    exact List.flatMap_eq_nil_iff.mpr fun line hline => noteless_of_textLine (h line hline)
  rw [Unnested, hnone]
  exact fun _ hn => absurd hn List.not_mem_nil

theorem left_applyElement {x y : Element} (hx : x.ParagraphOf TextLine)
    (h : runFrom s (applyElement recording x) = (.ok y, s')) :
    ∃ records, s'.trace = s.trace ++ records ∧ Left [y] records := by
  obtain @⟨attributes, lines, hheld, hlines⟩ := hx
  rw [applyElement] at h
  obtain ⟨steps, s₁, hdirective, h⟩ := runFrom_bind_eq_ok.mp h
  obtain ⟨after, s₂, happly, h⟩ := runFrom_bind_eq_ok.mp h
  cases h
  cases hselected : Directive.forParagraph attributes with
  | error fault => rw [hselected] at hdirective; cases hdirective
  | ok selected =>
    rw [hselected] at hdirective
    cases hdirective
    obtain ⟨before, hsteps, hlast⟩ := Directive.exists_of_forParagraph hselected
    obtain ⟨records, htrace, ⟨-, rfl, rfl⟩ | ⟨-, hrecorded⟩⟩ := recorded_of_applyLines happly
    · refine ⟨[], htrace, ?_, rfl, fun _ _ hr => absurd hr List.not_mem_nil⟩
      exact List.forall_mem_singleton.mpr (.intro hheld fun _ hl => absurd hl List.not_mem_nil)
    · refine ⟨records, htrace, ?_, ?_, ?_⟩
      · refine List.forall_mem_singleton.mpr (.intro hheld ?_)
        exact inline_of_recorded hrecorded fun line hl => inline_of_textLine (hlines line hl)
      · rw [linesAfter_of_recorded hrecorded hsteps hlast]
        exact List.append_nil _
      · exact unnested_of_recorded hrecorded (unnested_of_textLines hlines)

theorem left_applyElements {elements substituted : List Element}
    (helements : ∀ x ∈ elements, x.ParagraphOf TextLine)
    (h : runFrom s (applyElements recording elements) = (.ok substituted, s')) :
    ∃ records, s'.trace = s.trace ++ records ∧ Left substituted records := by
  induction elements generalizing s substituted with
  | nil =>
    rw [applyElements] at h
    cases h
    exact ⟨[], (List.append_nil _).symm, .nil⟩
  | cons x rest ih =>
    obtain ⟨hx, hrest⟩ := List.forall_mem_cons.mp helements
    rw [applyElements] at h
    obtain ⟨y, s₁, hfirst, h⟩ := runFrom_bind_eq_ok.mp h
    obtain ⟨ys, s₂, hothers, h⟩ := runFrom_bind_eq_ok.mp h
    cases h
    obtain ⟨first, htrace, hleft⟩ := left_applyElement hx hfirst
    obtain ⟨second, htrace', hleft'⟩ := ih hrest hothers
    refine ⟨first ++ second, ?_, hleft.append hleft'⟩
    rw [htrace', htrace, List.append_assoc]

theorem collect_of_paragraphs {p : Line → Prop} {elements : List Element}
    (h : ∀ x ∈ elements, x.ParagraphOf p) (found : Attributes) :
    Header.collect found elements = (found, elements) := by
  cases elements with
  | nil => rfl
  | cons x rest =>
    cases h x List.mem_cons_self
    rfl

variable {document : Document} {configuration : Configuration} {draft : Draft}
  {records : List Record}

theorem collected_of_trace (hdocument : ∀ x ∈ document.elements, x.ParagraphOf TextLine)
    (h : trace Fragment.parse document configuration = .ok (draft, records)) :
    ∃ substituted outcomes, Left substituted records ∧ Collected substituted outcomes draft := by
  obtain ⟨store, elements, substituted, state, hprepare, hrun, final, footnotes, hreplace, rfl, rfl⟩ :=
    run_cases h
  obtain ⟨-, helements⟩ := prepare_cases hprepare
  rw [collect_of_paragraphs hdocument] at helements
  obtain ⟨records, hrecords, hleft⟩ := left_applyElements (helements ▸ hdocument) hrun
  rw [List.nil_append] at hrecords
  obtain ⟨outcomes, hcollected⟩ : ∃ outcomes, Collected substituted outcomes ⟨_, _, final, _, _⟩ :=
    collected_of_replace hreplace rfl
  exact ⟨substituted, outcomes, hrecords ▸ hleft, hcollected⟩

/-- Collecting the footnotes of text paragraphs leaves none in the elements of the draft: each has
become a reference or a note. None is left in the notes either just if no footnote in the lines after
the last steps has another one inside, in particular if no macros step puts one into another. -/
theorem noteFree_iff_unnested (hdocument : ∀ x ∈ document.elements, x.ParagraphOf TextLine)
    (h : substitute Fragment.parse document configuration = .ok draft) :
    ∃ records substituted outcomes,
      trace Fragment.parse document configuration = .ok (draft, records) ∧
      substituted.flatMap Element.children = linesAfter .splitLines records ∧
      Collected substituted outcomes draft ∧
      Everywhere (note? · = none) draft.elements ∧
      (draft.NoteFree ↔ Unnested (linesAfter .splitLines records).flatten) ∧
      ((∀ record ∈ records, record.step = .macros → Unnested record.lines.flatten) →
        ∀ record ∈ records, Unnested record.lines.flatten) := by
  obtain ⟨records, htrace⟩ := exists_trace_of_substitute h
  obtain ⟨substituted, outcomes, hleft, hcollected⟩ := collected_of_trace hdocument htrace
  obtain ⟨hfinal, hnotes⟩ := noteFree_iff_of_collected hleft.paragraphs hcollected
  rw [hleft.lines] at hnotes
  exact ⟨records, substituted, outcomes, htrace, hleft.lines, hcollected, hfinal, hnotes,
    hleft.unnested⟩

section Nested

def nestedText : String := "footnote:[~footnote:[x]~]"

def nestedSubs : Attributes := ⟨[("subs", .string "quotes,macros")]⟩

def nestedLine (inside : Element) : Line :=
  [.text "footnote:[", .quoted .subscript ∅ [inside], .text "]"]

def nestedNote : Element :=
  .footnote none [.quoted .subscript ∅ [.footnote none [.text "x"]]]

def nested : Document :=
  ⟨none, [.paragraph nestedSubs [[.text nestedText]]]⟩

theorem paragraphs_nested : ∀ x ∈ nested.elements, x.ParagraphOf TextLine := by
  refine List.forall_mem_singleton.mpr (.intro (fun _ hs => absurd hs List.not_mem_nil) ?_)
  exact List.forall_mem_singleton.mpr (List.forall_mem_singleton.mpr rfl)

theorem prepare_nested :
    prepare nested Configuration.empty = .ok (⟨∅, ∅, ∅⟩, nested.elements) := by
  have hcheck : Reserved.check nested.elements = .ok nested.elements := by
    refine Reserved.check_of_gather_eq_nil ?_
    have hclean : Reserved.isIn nestedText = false := by decide
    simp [nested, gather_eq, Element.gather, Reserved.offending?, Element.children, hclean]
  rw [prepare, hcheck]
  rfl

theorem run_quotes_of_leaf {glyphs left : List Glyph} {x : Element}
    (h : Quote.leaf.run glyphs = some (x, left)) (hl : left.length < glyphs.length) :
    (Fragment.construct ⟨none⟩ .quotes).run glyphs = some ([x], left) := by
  have ht : Quote.leaf.take? glyphs = some (x, ⟨left, Quote.leaf.suffix h, hl⟩) :=
    take?_eq_some_iff.mpr h
  change ((Quote.read? glyphs).map _).bind _ = _
  rw [Quote.read?, ht]
  rfl

theorem parse_quotes_nested :
    Fragment.parse .quotes ⟨none⟩ nestedText = .ok (nestedLine (.text "footnote:[x]")) := by
  have hscript : (Fragment.construct ⟨none⟩ .quotes).run (spell "~footnote:[x]~]") =
      some ([.quoted .subscript ∅ [.text "footnote:[x]"]], [.char ']']) :=
    run_quotes_of_leaf rfl (by decide)
  have hlast : Fragment.read (Fragment.construct ⟨none⟩ .quotes) [.char ']'] = [.text "]"] :=
    (Fragment.read_char (Fragment.run_quotes_eq_none rfl rfl) (by decide)).trans (by rw [Fragment.read]; rfl)
  have hbracket : Fragment.read (Fragment.construct ⟨none⟩ .quotes)
      (.char '[' :: spell "~footnote:[x]~]") = _ :=
    Fragment.read_char (Fragment.run_quotes_eq_none rfl rfl) (by decide)
  have hcolon : Fragment.read (Fragment.construct ⟨none⟩ .quotes)
      (.char ':' :: spell "[~footnote:[x]~]") = _ :=
    Fragment.read_char (Fragment.run_quotes_eq_none rfl rfl) (by decide)
  have hword : Fragment.read (Fragment.construct ⟨none⟩ .quotes) (spell nestedText) = _ :=
    Fragment.read_word (Fragment.run_quotes_eq_none rfl rfl) (by decide) rfl
  have hread : Fragment.read (Fragment.construct ⟨none⟩ .quotes) (spell nestedText) =
      [.text "footnote", .text ":", .text "[", .quoted .subscript ∅ [.text "footnote:[x]"],
        .text "]"] := by
    refine hword.trans (congrArg _ (hcolon.trans (congrArg _ (hbracket.trans (congrArg _ ?_)))))
    rw [← hlast]
    exact Fragment.read_of_run hscript (by decide)
  rw [Fragment.parse_of_clean (by decide) (by decide) (by decide), hread]
  rfl

theorem run_footnote {keep : Macro.Keep} {glyphs left : List Glyph} {content : List Element}
    (h : (Macro.noteContent keep).run glyphs = some (content, .char ']' :: left)) :
    (Macro.footnote keep).run (spell "footnote:[" ++ glyphs) =
      some (.footnote none content, left) := by
  have hmacro : (literal "footnote:").run (spell "footnote:[" ++ glyphs) =
      some ((), .char '[' :: glyphs) := rfl
  have hname : (Reader.optional (someOf Macro.isKeyChar)).run (.char '[' :: glyphs) =
      some (none, .char '[' :: glyphs) := rfl
  have hopen : (literal "[").run (.char '[' :: glyphs) = some ((), glyphs) := rfl
  have hclose : (literal "]").run (.char ']' :: left) = some ((), left) := rfl
  simp only [Macro.footnote, run_bind, hmacro, hname, hopen, h, hclose, Option.bind_some, run_pure,
    Option.map_none]

theorem run_noteContent {keep : Macro.Keep} {glyphs left : List Glyph} {x : Element}
    (h : (firstOf [Macro.token, Macro.bareLink keep, Macro.noteText]).run glyphs = some (x, left))
    (hl : left.length < glyphs.length)
    (hleft : (firstOf [Macro.token, Macro.bareLink keep, Macro.noteText]).run left = none) :
    (Macro.noteContent keep).run glyphs = some (merge [x], left) := by
  have hmany : manyFrom (firstOf [Macro.token, Macro.bareLink keep, Macro.noteText]) glyphs =
      ([x], left) := by
    rw [manyFrom_of_run h hl, manyFrom, take?_of_run_eq_none hleft]
  change some (merge (manyFrom _ glyphs).1, (manyFrom _ glyphs).2) = _
  rw [hmany]

theorem read_macros_footnote {glyphs : List Glyph} {content : List Element}
    (h : (Macro.noteContent Dict.ofList).run glyphs = some (content, [.char ']'])) :
    Fragment.read (Fragment.construct ⟨none⟩ .macros) (spell "footnote:[" ++ glyphs) =
      [.footnote none content] := by
  have hrun : (Fragment.construct ⟨none⟩ .macros).run (spell "footnote:[" ++ glyphs) =
      some ([.footnote none content], []) := by
    change (((Macro.footnote Dict.ofList).run (spell "footnote:[" ++ glyphs)).or _).bind _ = _
    rw [run_footnote h]
    rfl
  refine (Fragment.read_of_run hrun (by simp)).trans ?_
  rw [Fragment.read, List.append_nil]

theorem parse_macros_inside :
    Fragment.parse .macros ⟨none⟩ "footnote:[x]" = .ok [.footnote none [.text "x"]] := by
  have hcontent : (Macro.noteContent Dict.ofList).run (spell "x]") =
      some ([.text "x"], [.char ']']) :=
    run_noteContent (x := .text "x") rfl (by decide) rfl
  rw [Fragment.parse_of_clean (by decide) (by decide) (by decide)]
  exact congrArg (Except.ok ∘ merge) (read_macros_footnote hcontent)

theorem parse_macros_nested :
    Fragment.parse .macros ⟨none⟩ (serialized [nestedLine (.text "footnote:[x]")]) =
      .ok [.footnote none [.placeholder 1]] := by
  have hcontent : (Macro.noteContent Dict.ofList).run [.token ['1'], .char ']'] =
      some ([.placeholder 1], [.char ']']) :=
    run_noteContent (x := .placeholder 1) rfl (by decide) rfl
  have hunforged : ∀ line ∈ [nestedLine (.text "footnote:[x]")], Unforged line := by
    simp [Unforged, nestedLine]
    decide
  rw [Fragment.parse_serialized (by decide) (by decide) hunforged, scan_serialized hunforged]
  exact congrArg (Except.ok ∘ merge) (read_macros_footnote hcontent)

theorem reread_quotes_nested :
    reread Fragment.parse .quotes ⟨none⟩ [[.text nestedText]] =
      .ok (nestedLine (.text "footnote:[x]")) := by
  have hnone : references (nestedLine (.text "footnote:[x]")) = [] := by
    simp [nestedLine, references, gather_eq, Element.gather, placeholder?,
      Element.children, show (∅ : Attributes).entries = [] from rfl, sequencesOf]
  exact reread_text parse_quotes_nested hnone

theorem reread_macros_nested :
    reread Fragment.parse .macros ⟨none⟩ [nestedLine (.text "footnote:[x]")] =
      .ok [nestedNote] := by
  have hpayloads : (setAside [nestedLine (.text "footnote:[x]")]).mapM
      (parsePayload (Fragment.parse .macros ⟨none⟩)) =
        .ok [.quoted .subscript ∅ [.footnote none [.text "x"]]] := by
    change (do return (← parsePayload (Fragment.parse .macros ⟨none⟩) _) :: []) = _
    rw [parsePayload, parseFragments, parse_macros_inside]
    rfl
  have honce : ExactlyOnce 1 [.footnote none [.placeholder 1]] := by
    simp [ExactlyOnce, references, gather_eq, Element.gather, placeholder?, Element.children]
  rw [reread_eq_ok (by decide) hpayloads parse_macros_nested honce]
  simp [nestedNote, putBack, substituted_eq, placeholder?, Element.children, Element.withChildren,
    merge]
  rfl

def nestedRecords : List Record :=
  [⟨"paragraph", 0, .quotes, [nestedLine (.text "footnote:[x]")]⟩,
    ⟨"paragraph", 1, .macros, [[nestedNote]]⟩, ⟨"paragraph", 2, .splitLines, [[nestedNote]]⟩]

theorem trace_nested :
    ∃ draft, trace Fragment.parse nested Configuration.empty = .ok (draft, nestedRecords) := by
  have hquotes := runFrom_takeStep "paragraph" 0
    (runFrom_applyStep (s := ⟨⟨⟨∅, ∅, ∅⟩, []⟩, []⟩) "paragraph"
      (show Step.quotes.rule? = some .quotes from rfl) (by decide) reread_quotes_nested)
  have hmacros := runFrom_takeStep "paragraph" 1
    (runFrom_applyStep (s := ⟨⟨⟨∅, ∅, ∅⟩, []⟩, nestedRecords.take 1⟩) "paragraph"
      (show Step.macros.rule? = some .macros from rfl) (by decide) reread_macros_nested)
  have hsteps : runFrom ⟨⟨⟨∅, ∅, ∅⟩, []⟩, []⟩ (applySteps recording "paragraph" 0
      [.quotes, .macros, .splitLines] [[.text nestedText]]) =
        (.ok [[nestedNote]], ⟨⟨⟨∅, ∅, ∅⟩, []⟩, nestedRecords⟩) := by
    rw [applySteps_cons, runFrom_bind_ok hquotes, applySteps_cons]
    exact runFrom_bind_ok hmacros _
  have hdirective : runFrom ⟨⟨⟨∅, ∅, ∅⟩, []⟩, []⟩ (ofExcept (Directive.forParagraph nestedSubs)) =
      (.ok [.quotes, .macros, .splitLines], ⟨⟨⟨∅, ∅, ∅⟩, []⟩, []⟩) := rfl
  have helements : runFrom ⟨⟨⟨∅, ∅, ∅⟩, []⟩, []⟩ (applyElements recording nested.elements) =
      (.ok [.paragraph nestedSubs [[nestedNote]]], ⟨⟨⟨∅, ∅, ∅⟩, []⟩, nestedRecords⟩) := by
    rw [nested, applyElements, applyElement]
    exact runFrom_bind_ok ((runFrom_bind_ok hdirective _).trans (runFrom_bind_ok hsteps _)) _
  exact run_of_ok prepare_nested helements

theorem substitute_nested :
    ∃ draft, substitute Fragment.parse nested Configuration.empty = .ok draft ∧
      trace Fragment.parse nested Configuration.empty = .ok (draft, nestedRecords) := by
  obtain ⟨draft, htrace⟩ := trace_nested
  refine ⟨draft, ?_, htrace⟩
  rw [substitute_eq_map_trace, htrace]
  rfl

theorem noteFree_iff_in_nested :
    ∃ draft records, substitute Fragment.parse nested Configuration.empty = .ok draft ∧
      trace Fragment.parse nested Configuration.empty = .ok (draft, records) ∧
      (draft.NoteFree ↔ Unnested (linesAfter .splitLines records).flatten) := by
  obtain ⟨draft, hdraft, -⟩ := substitute_nested
  obtain ⟨records, -, -, htrace, -, -, -, hiff, -⟩ := noteFree_iff_unnested paragraphs_nested hdraft
  exact ⟨draft, records, hdraft, htrace, hiff⟩

theorem footnote_left_in_note :
    (∀ x ∈ nested.elements, x.ParagraphOf TextLine) ∧
      ∃ draft, substitute Fragment.parse nested Configuration.empty = .ok draft ∧
        ¬ draft.NoteFree := by
  obtain ⟨draft, hdraft, htrace⟩ := substitute_nested
  obtain ⟨substituted, outcomes, hleft, hcollected⟩ := collected_of_trace paragraphs_nested htrace
  obtain ⟨-, hiff⟩ := noteFree_iff_of_collected hleft.paragraphs hcollected
  refine ⟨paragraphs_nested, draft, hdraft, fun hfree => ?_⟩
  have hlines : (linesAfter .splitLines nestedRecords).flatten = [nestedNote] := rfl
  rw [hleft.lines, hlines] at hiff
  have hmem : ⟨none, [.quoted .subscript ∅ [.footnote none [.text "x"]]]⟩ ∈
      gather note? [nestedNote] := by
    rw [gather_singleton]
    exact List.mem_singleton_self _
  have hinside : Noteless [.quoted .subscript ∅ [.footnote none [.text "x"]]] :=
    hiff.mp hfree _ hmem
  rw [Noteless, gather_singleton, standing_note?.gather_quoted] at hinside
  simp [gather_eq, Element.gather, note?] at hinside

end Nested

end Pass

end Manuscript
