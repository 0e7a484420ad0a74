import Manuscript.Proofs.Dispatch
import Manuscript.Proofs.Footnotes.Paragraphs

namespace Manuscript

open Footnotes Pass

inductive Element.Block : Element → Prop
  | paragraph {attributes : Attributes} {lines : List Line} : Block (.paragraph attributes lines)
  | lineBlock {kind : BlockKind} {attributes : Attributes} {lines : List Line} :
      Block (.lineBlock kind attributes lines)
  | elementBlock {kind : BlockKind} {attributes : Attributes} {elements : List Element} :
      (∀ x ∈ elements, Block x) → Block (.elementBlock kind attributes elements)
  | sectionBlock {level : UInt8} {attributes : Attributes} {title elements : List Element} :
      (∀ x ∈ elements, Block x) → Block (.sectionBlock level attributes title elements)
  | imageBlock {location : Location Element} {attributes : Attributes} :
      Block (.imageBlock location attributes)
  | listItem {marker : Marker} {attributes : Attributes} {elements : List Element} :
      (∀ x ∈ elements, Block x) → Block (.listItem marker attributes elements)
  | labeledItem {level : UInt8} {term : List Element} {attributes : Attributes}
      {elements : List Element} :
      (∀ x ∈ elements, Block x) → Block (.labeledItem level term attributes elements)
  | continued {offset : Int32} {x : Element} : Block x → Block (.continued offset x)
  | declaration {name : String} {value : Value} : Block (.declaration name value)
  | reset {name : String} : Block (.reset name)
  | blankLine : Block .blankLine
  | thematicBreak : Block .thematicBreak
  | comment {s : String} : Block (.comment s)

/-- The attributes of a block before and after it was given one, unless it has it already. -/
def Gains (name : String) (has : Attributes → Bool) (before after : Attributes) : Prop :=
  if has before then after = before else ∃ s, after = before.insert name (.string s)

inductive Framed : Element → Element → Prop
  | paragraph {attributes : Attributes} {lines lines' : List Line} :
      Framed (.paragraph attributes lines) (.paragraph attributes lines')
  | lineBlock {kind : BlockKind} {attributes : Attributes} {lines lines' : List Line} :
      Framed (.lineBlock kind attributes lines) (.lineBlock kind attributes lines')
  | attributed {attributes : Attributes} {author : String} {lines lines' : List Line} :
      Framed (.lineBlock .markdownQuote attributes lines)
        (.lineBlock .markdownQuote (attributes.insert "quoteAuthor" (.string author)) lines')
  | elementBlock {kind : BlockKind} {attributes : Attributes} {elements elements' : List Element} :
      List.Forall₂ Framed elements elements' →
      Framed (.elementBlock kind attributes elements) (.elementBlock kind attributes elements')
  | sectionBlock {level : UInt8} {attributes attributes' : Attributes} {title title' : Line}
      {elements elements' : List Element} :
      Gains "id" Identifier.isCustom attributes attributes' →
      List.Forall₂ Framed elements elements' →
      Framed (.sectionBlock level attributes title elements)
        (.sectionBlock level attributes' title' elements')
  | imageBlock {scheme : String} {path path' : Line} {attributes attributes' : Attributes} :
      Gains "alt" (·.contains "alt") attributes attributes' →
      Framed (.imageBlock ⟨scheme, path⟩ attributes) (.imageBlock ⟨scheme, path'⟩ attributes')
  | listItem {marker : Marker} {attributes : Attributes} {elements elements' : List Element} :
      List.Forall₂ Framed elements elements' →
      Framed (.listItem marker attributes elements) (.listItem marker attributes elements')
  | labeledItem {level : UInt8} {term term' : Line} {attributes : Attributes}
      {elements elements' : List Element} :
      List.Forall₂ Framed elements elements' →
      Framed (.labeledItem level term attributes elements)
        (.labeledItem level term' attributes elements')
  | continued {offset : Int32} {x y : Element} :
      Framed x y → Framed (.continued offset x) (.continued offset y)
  | declaration {name : String} {value : Value} :
      Framed (.declaration name value) (.declaration name value)
  | reset {name : String} : Framed (.reset name) (.reset name)
  | blankLine : Framed .blankLine .blankLine
  | thematicBreak : Framed .thematicBreak .thematicBreak
  | comment {s : String} : Framed (.comment s) (.comment s)

theorem Element.Block.inside {x : Element} (h : x.Block) :
    match x with
    | .elementBlock _ _ elements | .sectionBlock _ _ _ elements | .listItem _ _ elements
    | .labeledItem _ _ _ elements => ∀ y ∈ elements, y.Block
    | .continued _ y => y.Block
    | _ => True := by
  cases h <;> first | assumption | trivial

theorem portions_cons {t : Line} {ts sequences : List Line} {outcomes : List Element}
    (h : Portions (Filled note? id) (t :: ts) outcomes sequences) :
    ∃ results own rest others, sequences = results :: rest ∧
      Portions (Element.Filled note? id) t own results ∧
      Portions (Filled note? id) ts others rest := by
  cases h with
  | cons hfirst hrest =>
    obtain ⟨hparts⟩ := hfirst
    exact ⟨_, _, _, _, rfl, hparts, hrest⟩

mutual

theorem Framed.withChildren {x y : Element} (h : Framed x y) {outcomes : List Element}
    {sequences : List Line} (hs : Portions (Filled note? id) y.children outcomes sequences) :
    Framed x (y.withChildren sequences) :=
  match h with
  | .paragraph => .paragraph
  | .lineBlock => .lineBlock
  | .attributed => .attributed
  | .elementBlock helements => by
    obtain ⟨_, _, _, _, rfl, hparts, hrest⟩ := portions_cons hs
    cases hrest
    exact .elementBlock (framed_of_portions helements hparts)
  | .sectionBlock hgains helements => by
    obtain ⟨_, _, _, _, rfl, -, hrest⟩ := portions_cons hs
    obtain ⟨_, _, _, _, rfl, hparts, hrest⟩ := portions_cons hrest
    cases hrest
    exact .sectionBlock hgains (framed_of_portions helements hparts)
  | .imageBlock hgains => by
    obtain ⟨_, _, _, _, rfl, -, hrest⟩ := portions_cons hs
    cases hrest
    exact .imageBlock hgains
  | .listItem helements => by
    obtain ⟨_, _, _, _, rfl, hparts, hrest⟩ := portions_cons hs
    cases hrest
    exact .listItem (framed_of_portions helements hparts)
  | .labeledItem helements => by
    obtain ⟨_, _, _, _, rfl, -, hrest⟩ := portions_cons hs
    obtain ⟨_, _, _, _, rfl, hparts, hrest⟩ := portions_cons hrest
    cases hrest
    exact .labeledItem (framed_of_portions helements hparts)
  | .continued hinside => .continued (hinside.withChildren hs)
  | .declaration => .declaration
  | .reset => .reset
  | .blankLine => .blankLine
  | .thematicBreak => .thematicBreak
  | .comment => .comment

theorem framed_of_portions {xs ys zs outcomes : List Element} (h : List.Forall₂ Framed xs ys)
    (hz : Portions (Element.Filled note? id) ys outcomes zs) : List.Forall₂ Framed xs zs :=
  match h with
  | .nil => by
    cases hz
    exact .nil
  | .cons hfirst hrest => by
    cases hz with
    | cons hown hothers =>
      refine .cons ?_ (framed_of_portions hrest hothers)
      cases hown with
      | event hevent => cases hfirst <;> cases hevent
      | inside _ hsequences => exact hfirst.withChildren hsequences

end

theorem framed_of_filled {xs ys zs outcomes : List Element} (h : List.Forall₂ Framed xs ys)
    (hfilled : Filled note? id ys outcomes zs) : List.Forall₂ Framed xs zs := by
  obtain ⟨hparts⟩ := hfilled
  exact framed_of_portions h hparts

section Steps

variable {setting : Setting} {x : Element}

theorem returns_applyImage (location : Location Element) (attributes : Attributes) :
    Returns (applyImage setting location attributes)
      (Framed (.imageBlock location attributes)) := by
  obtain ⟨scheme, path⟩ := location
  rw [applyImage]
  refine (Returns.any _).bind fun path' _ => (Returns.any _).bind fun current _ => ?_
  obtain ⟨path'', hbelow⟩ : ∃ path'',
      Location.below (current.textD "imagesdir" "") ⟨scheme, path'⟩ = ⟨scheme, path''⟩ := by
    rcases Location.below_cases (current.textD "imagesdir" "") ⟨scheme, path'⟩ with h | h
    · exact ⟨_, h⟩
    · exact ⟨_, h⟩
  dsimp only
  rw [hbelow]
  split
  · next halt => exact .pure (.imageBlock (by rw [Gains, if_pos halt]))
  · next halt => exact .pure (.imageBlock (by rw [Gains, if_neg halt]; exact ⟨_, rfl⟩))

theorem returns_applyTitle (steps : List Step) (attributes : Attributes) (title : Line) :
    Returns (applyTitle setting steps attributes title)
      fun after => Gains "id" Identifier.isCustom attributes after.1 := by
  rw [applyTitle]
  refine (Returns.any _).bind fun read _ => (Returns.any _).bind fun current _ => .pure ?_
  rw [Gains, Identifier.assign]
  split
  · rfl
  · exact ⟨_, rfl⟩

theorem returns_moveAttribution (kind : BlockKind) (attributes : Attributes) (lines : List Line) :
    Returns (moveAttribution setting kind attributes lines) fun moved =>
      ∀ after, Framed (.lineBlock kind attributes lines) (.lineBlock kind moved.1 after) := by
  rw [moveAttribution]
  split
  · next hkind =>
    subst hkind
    refine (Returns.any _).bind fun current _ => ?_
    split
    · exact .pure fun _ => .attributed
    · exact .pure fun _ => .lineBlock
  · exact .pure fun _ => .lineBlock

theorem returns_applyLeaf (hx : x.Block) (hleaf : x.Leaf) :
    Returns (applyLeaf setting x) (Framed x) := by
  cases hx with
  | paragraph => exact hleaf.elim
  | lineBlock => exact hleaf.elim
  | elementBlock => exact hleaf.elim
  | sectionBlock => exact hleaf.elim
  | listItem => exact hleaf.elim
  | labeledItem => exact hleaf.elim
  | continued => exact hleaf.elim
  | imageBlock => exact returns_applyImage _ _
  | declaration => exact fun _ _ _ h => by cases h; exact .declaration
  | reset => exact fun _ _ _ h => by cases h; exact .reset
  | blankLine => exact .pure .blankLine
  | thematicBreak => exact .pure .thematicBreak
  | comment => exact .pure .comment

theorem returns_moveUnlessHanded (handed : Handed) (kind : BlockKind) (attributes : Attributes)
    (lines : List Line) :
    Returns (moveUnlessHanded setting handed kind attributes lines) fun moved =>
      ∀ after, Framed (.lineBlock kind attributes lines) (.lineBlock kind moved.1 after) := by
  cases handed with
  | none => exact returns_moveAttribution kind attributes lines
  | some _ => exact .pure fun _ => .lineBlock

theorem returns_through (setting : Setting) (handed : Handed) {elements : List Element}
    (h : ∀ x ∈ elements, x.Block) :
    Returns (through setting handed elements) (List.Forall₂ Framed elements) := by
  refine block_induction
    (P := fun x => ∀ handed, x.Block → Returns (treat setting handed x) (Framed x))
    (Q := fun elements => ∀ handed, (∀ x ∈ elements, x.Block) →
      Returns (through setting handed elements) (List.Forall₂ Framed elements))
    ?paragraph ?lineBlock ?elementBlock ?sectionBlock ?listItem ?labeledItem ?continued ?leaf ?nil
    ?cons elements handed h
  case paragraph =>
    intro attributes lines handed _
    rw [treat_paragraph]
    exact (Returns.any _).bind fun _ _ => (Returns.any _).bind fun _ _ => .pure .paragraph
  case lineBlock =>
    intro kind attributes lines handed _
    rw [treat_lineBlock]
    exact (Returns.any _).bind fun _ _ =>
      (returns_moveUnlessHanded handed kind attributes lines).bind fun _ hmoved =>
        (Returns.any _).bind fun after _ => .pure (hmoved after)
  case elementBlock =>
    intro kind attributes elements ih handed hx
    rw [treat_elementBlock]
    exact (Returns.any _).bind fun next _ =>
      (ih next hx.inside).bind fun _ hbody => .pure (.elementBlock hbody)
  case sectionBlock =>
    intro level attributes title elements ih handed hx
    rw [treat_sectionBlock]
    exact (returns_applyTitle _ attributes title).bind fun _ htitle =>
      (ih handed hx.inside).bind fun _ hbody => .pure (.sectionBlock htitle hbody)
  case listItem =>
    intro marker attributes elements ih handed hx
    rw [treat_listItem]
    exact (ih handed hx.inside).bind fun _ hbody => .pure (.listItem hbody)
  case labeledItem =>
    intro level term attributes elements ih handed hx
    rw [treat_labeledItem]
    exact (Returns.any _).bind fun _ _ =>
      (ih handed hx.inside).bind fun _ hbody => .pure (.labeledItem hbody)
  case continued =>
    intro offset x ih handed hx
    rw [treat_continued]
    exact (ih handed hx.inside).bind fun _ hinner => .pure (.continued hinner)
  case leaf =>
    intro x hleaf handed hx
    rw [treat_of_leaf hleaf]
    exact returns_applyLeaf hx hleaf
  case nil =>
    intro handed _
    rw [through_nil]
    exact .pure .nil
  case cons =>
    intro x rest ih ihrest handed hblocks
    obtain ⟨hx, hrest⟩ := List.forall_mem_cons.mp hblocks
    rw [through_cons]
    exact (ih handed hx).bind fun _ hfirst => (ihrest handed hrest).bind fun _ hothers =>
      .pure (.cons hfirst hothers)

end Steps

section Header

def inHeader : Element → Bool
  | .sectionBlock level _ _ _ => level == 0
  | .declaration _ _ => true
  | .reset _ => true
  | .blankLine => true
  | .comment _ => true
  | _ => false

def withoutCredits : Element → Element
  | .sectionBlock level attributes title elements =>
      .sectionBlock level ((attributes.erase "authors").erase "revision") title elements
  | x => x

def afterHeader (elements : List Element) : List Element :=
  (elements.takeWhile inHeader).map withoutCredits ++ elements.dropWhile inHeader

theorem collect_snd (found : Attributes) (elements : List Element) :
    (Header.collect found elements).2 = afterHeader elements := by
  fun_induction Header.collect found elements <;>
    simp_all +zetaDelta [afterHeader, inHeader, withoutCredits, List.takeWhile_cons, List.dropWhile_cons]

theorem block_withoutCredits {x : Element} (h : x.Block) : (withoutCredits x).Block := by
  cases h with
  | sectionBlock helements => exact .sectionBlock helements
  | elementBlock helements => exact .elementBlock helements
  | listItem helements => exact .listItem helements
  | labeledItem helements => exact .labeledItem helements
  | continued helement => exact .continued helement
  | _ => constructor

theorem block_afterHeader {elements : List Element} (h : ∀ x ∈ elements, x.Block) :
    ∀ x ∈ afterHeader elements, x.Block := by
  intro x hx
  rw [afterHeader, List.mem_append, List.mem_map] at hx
  obtain ⟨y, hy, rfl⟩ | hx := hx
  · exact block_withoutCredits (h y ((List.takeWhile_prefix _).subset hy))
  · exact h x ((List.dropWhile_suffix _).subset hx)

end Header

/-- The draft of a document of blocks has the skeleton of its elements after the scan of the header, and
the same front matter. -/
theorem skeleton_preserved {grammar : Grammar} {document : Document}
    {configuration : Configuration} {draft : Draft} (hblocks : ∀ x ∈ document.elements, x.Block)
    (h : substitute grammar document configuration = .ok draft) :
    List.Forall₂ Framed (afterHeader document.elements) draft.elements ∧
      draft.frontMatter = document.frontMatter := by
  obtain ⟨records, htrace⟩ := exists_trace_of_substitute h
  obtain ⟨store, elements, substituted, state, hprepare, happly, final, footnotes, hreplace, hdraft, -⟩ :=
    run_cases htrace
  obtain ⟨-, rfl⟩ := prepare_cases hprepare
  rw [collect_snd] at happly
  have hframed := returns_through _ none (block_afterHeader hblocks) _ _ _ happly
  have hfinal : draft.elements = final := by rw [hdraft]
  have hnotes : draft.notes = footnotes.notes := by rw [hdraft]
  obtain ⟨outcomes, hcollected⟩ := collected_of_replace (hfinal ▸ hreplace) hnotes
  exact ⟨framed_of_filled hframed hcollected.filled, by rw [hdraft]⟩

def nestedBlocks : Document :=
  ⟨none, [.comment "a", .elementBlock .exampleBlock ∅ [.paragraph ∅ [], .continued 0 .thematicBreak],
    .declaration "b" (.string "c")]⟩

theorem block_nestedBlocks : ∀ x ∈ nestedBlocks.elements, x.Block := by
  rw [nestedBlocks]
  simp only [List.forall_mem_cons]
  refine ⟨.comment, .elementBlock ?_, .declaration, fun _ => nofun⟩
  simp only [List.forall_mem_cons]
  exact ⟨.paragraph, .continued .thematicBreak, fun _ => nofun⟩

theorem substitute_nestedBlocks :
    ∃ draft, substitute Fragment.parse nestedBlocks Configuration.empty = .ok draft := by
  have hcheck : Reserved.check nestedBlocks.elements = .ok nestedBlocks.elements := by
    refine Reserved.check_of_gather_eq_nil ?_
    have hclean : Reserved.isIn "c" = false := by decide
    simp [nestedBlocks, gather_eq, Element.gather, Reserved.offending?, Element.children, hclean]
  have hprepare : prepare nestedBlocks Configuration.empty =
      .ok (⟨∅, ∅, ∅⟩, nestedBlocks.elements) := by
    rw [prepare, hcheck]
    rfl
  have happly : ∃ ys state, runFrom ⟨⟨⟨∅, ∅, ∅⟩, []⟩, []⟩
      (applyElements ⟨Fragment.parse, false⟩ nestedBlocks.elements) = (.ok ys, state) :=
    ⟨_, _, rfl⟩
  obtain ⟨ys, state, happly⟩ := happly
  obtain ⟨draft, hdraft⟩ := run_of_ok hprepare happly
  exact ⟨draft, by rw [substitute, hdraft]; rfl⟩

theorem skeleton_preserved_nested :
    ∃ draft, substitute Fragment.parse nestedBlocks Configuration.empty = .ok draft ∧
      List.Forall₂ Framed nestedBlocks.elements draft.elements ∧ draft.frontMatter = none := by
  obtain ⟨draft, hdraft⟩ := substitute_nestedBlocks
  exact ⟨draft, hdraft, skeleton_preserved block_nestedBlocks hdraft⟩

end Manuscript
