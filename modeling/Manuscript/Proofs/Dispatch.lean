import Manuscript.Proofs.Outcome
import Manuscript.Substitution.Pass

namespace Manuscript

def Undirected (attributes : Attributes) : Prop :=
  Text.trim ((attributes.text? "subs").getD "") = ""

def Element.Leaf : Element → Prop
  | .paragraph _ _ | .lineBlock _ _ _ | .elementBlock _ _ _ | .sectionBlock _ _ _ _
  | .listItem _ _ _ | .labeledItem _ _ _ _ | .continued _ _ => False
  | _ => True

inductive Element.Normal : Element → Prop
  | paragraph {attributes : Attributes} {lines : List Line} :
      Undirected attributes → attributes.text? "block-kind" ≠ some "listing" →
      Normal (.paragraph attributes lines)
  | lineBlock {kind : BlockKind} {attributes : Attributes} {lines : List Line} :
      kind.steps = normalSteps → kind ≠ .markdownQuote → Undirected attributes →
      Normal (.lineBlock kind attributes lines)
  | elementBlock {kind : BlockKind} {attributes : Attributes} {elements : List Element} :
      kind.steps = normalSteps → Undirected attributes →
      Normal (.elementBlock kind attributes elements)
  | listItem {marker : Marker} {attributes : Attributes} {elements : List Element} :
      (∀ x ∈ elements, Normal x) → Normal (.listItem marker attributes elements)
  | continued {offset : Int32} {x : Element} : Normal x → Normal (.continued offset x)
  | leaf {x : Element} : x.Leaf → Normal x

theorem block_induction {P : Element → Prop} {Q : List Element → Prop}
    (paragraph : ∀ attributes lines, P (.paragraph attributes lines))
    (lineBlock : ∀ kind attributes lines, P (.lineBlock kind attributes lines))
    (elementBlock : ∀ kind attributes elements, Q elements →
      P (.elementBlock kind attributes elements))
    (sectionBlock : ∀ level attributes title elements, Q elements →
      P (.sectionBlock level attributes title elements))
    (listItem : ∀ marker attributes elements, Q elements → P (.listItem marker attributes elements))
    (labeledItem : ∀ level term attributes elements, Q elements →
      P (.labeledItem level term attributes elements))
    (continued : ∀ offset x, P x → P (.continued offset x))
    (leaf : ∀ x, x.Leaf → P x)
    (nil : Q []) (cons : ∀ x rest, P x → Q rest → Q (x :: rest)) (elements : List Element) :
    Q elements := by
  refine Pass.applyChildren.induct P Q paragraph lineBlock elementBlock sectionBlock listItem
    labeledItem continued ?_ nil cons elements
  intro x h₁ h₂ h₃ h₄ h₅ h₆ h₇
  refine leaf x ?_
  cases x
  case paragraph => exact h₁ _ _ rfl
  case lineBlock => exact h₂ _ _ _ rfl
  case elementBlock => exact h₃ _ _ _ rfl
  case sectionBlock => exact h₄ _ _ _ _ rfl
  case listItem => exact h₅ _ _ _ rfl
  case labeledItem => exact h₆ _ _ _ _ rfl
  case continued => exact h₇ _ _ rfl
  all_goals trivial

namespace Directive

variable {attributes : Attributes}

theorem selectFor_of_undirected (defaults : List Step) (h : Undirected attributes) :
    selectFor defaults attributes = .ok (defaults ++ [.splitLines]) := by
  have hblank : Text.trim ((attributes.text? "subs").getD "") = "" := h
  rw [selectFor, select, if_pos hblank]
  rfl

theorem forParagraph_of_undirected (h : Undirected attributes)
    (hkind : attributes.text? "block-kind" ≠ some "listing") :
    forParagraph attributes = .ok (normalSteps ++ [.splitLines]) := by
  rw [forParagraph, paragraphSteps, if_neg hkind, selectFor_of_undirected _ h]

theorem forBlock_of_undirected {kind : BlockKind} (hsteps : kind.steps = normalSteps)
    (h : Undirected attributes) : forBlock kind attributes = .ok (normalSteps ++ [.splitLines]) := by
  rw [forBlock, selectFor_of_undirected _ h, hsteps]
  rfl

end Directive

namespace Pass

variable {setting : Setting} {kind : BlockKind} {attributes : Attributes} {x : Element}
  {elements : List Element}

theorem ofExcept_ok_bind {α β : Type} (a : α) (next : α → Run β) :
    ofExcept (.ok a) >>= next = next a := rfl

theorem applyElement_elementBlock (hsteps : kind.steps = normalSteps) (h : Undirected attributes) :
    applyElement setting (.elementBlock kind attributes elements) =
      .elementBlock kind attributes <$>
        applyChildren setting (normalSteps ++ [.splitLines]) elements := by
  rw [applyElement, Directive.forBlock_of_undirected hsteps h, ofExcept_ok_bind, map_eq_pure_bind]

theorem applyChild_of_leaf (steps : List Step) (h : x.Leaf) :
    applyChild setting steps x = applyLeaf setting x := by
  cases x <;> first | exact False.elim h | rfl

theorem applyElement_of_leaf (h : x.Leaf) : applyElement setting x = applyLeaf setting x := by
  cases x <;> first | exact False.elim h | rfl

mutual

theorem applyChild_eq_applyElement (setting : Setting) {x : Element} (h : x.Normal) :
    applyChild setting (normalSteps ++ [.splitLines]) x = applyElement setting x :=
  match h with
  | .paragraph hattributes hkind => by
    rw [applyChild, applyElement, Directive.forParagraph_of_undirected hattributes hkind,
      ofExcept_ok_bind]
  | .lineBlock hsteps hkind hattributes => by
    rw [applyChild, applyElement, Directive.forBlock_of_undirected hsteps hattributes,
      ofExcept_ok_bind, moveAttribution, if_neg hkind, pure_bind]
  | .elementBlock hsteps hattributes => by
    rw [applyElement_elementBlock hsteps hattributes, applyChild, map_eq_pure_bind]
  | .listItem helements => by
    rw [applyChild, applyElement, applyChildren_eq_applyElements setting helements]
  | .continued hinside => by
    rw [applyChild, applyElement, applyChild_eq_applyElement setting hinside]
  | .leaf hleaf => by
    rw [applyChild_of_leaf _ hleaf, applyElement_of_leaf hleaf]

theorem applyChildren_eq_applyElements (setting : Setting) {elements : List Element}
    (h : ∀ x ∈ elements, x.Normal) :
    applyChildren setting (normalSteps ++ [.splitLines]) elements = applyElements setting elements :=
  match elements with
  | [] => by rw [applyChildren, applyElements]
  | x :: rest => by
    rw [applyChildren, applyElements, applyChild_eq_applyElement setting (h x List.mem_cons_self),
      applyChildren_eq_applyElements setting fun y hy => h y (List.mem_cons_of_mem x hy)]

end

abbrev Handed := Option (List Step)

def treat (setting : Setting) : Handed → Element → Run Element
  | none => applyElement setting
  | some steps => applyChild setting steps

def through (setting : Setting) : Handed → List Element → Run (List Element)
  | none => applyElements setting
  | some steps => applyChildren setting steps

def enter (setting : Setting) (handed : Handed) : Element → Run Handed
  | .sectionBlock _ attributes title _ => do
      let _ ← applyTitle setting (handed.getD normalSteps) attributes title
      return handed
  | .labeledItem _ term _ _ => do
      let _ ← applyInline setting (handed.getD normalSteps) "labeled list term" term
      return handed
  | .elementBlock kind attributes _ =>
      match handed with
      | none => some <$> ofExcept (Directive.forBlock kind attributes)
      | some steps => return some steps
  | _ => return handed

def stepsOr (handed : Handed) (own : Except Fault (List Step)) : Run (List Step) :=
  match handed with
  | none => ofExcept own
  | some steps => return steps

def moveUnlessHanded (setting : Setting) (handed : Handed) (kind : BlockKind)
    (attributes : Attributes) (lines : List Line) : Run (Attributes × List Line) :=
  match handed with
  | none => moveAttribution setting kind attributes lines
  | some _ => return (attributes, lines)

section Treat

variable {handed : Handed}

theorem treat_of_leaf (h : x.Leaf) : treat setting handed x = applyLeaf setting x := by
  cases handed with
  | none => exact applyElement_of_leaf h
  | some steps => exact applyChild_of_leaf steps h

theorem treat_elementBlock (kind : BlockKind) (attributes : Attributes) (elements : List Element) :
    treat setting handed (.elementBlock kind attributes elements) = do
      let next ← enter setting handed (.elementBlock kind attributes elements)
      return .elementBlock kind attributes (← through setting next elements) := by
  cases handed with
  | none =>
    rw [treat, applyElement, enter, bind_map_left]
    rfl
  | some steps =>
    rw [treat, applyChild, enter, pure_bind]
    rfl

theorem treat_sectionBlock (level : UInt8) (attributes : Attributes) (title : Line)
    (elements : List Element) :
    treat setting handed (.sectionBlock level attributes title elements) = do
      let (attributes, title) ← applyTitle setting (handed.getD normalSteps) attributes title
      return .sectionBlock level attributes title (← through setting handed elements) := by
  cases handed with
  | none =>
    rw [treat, applyElement]
    rfl
  | some steps =>
    rw [treat, applyChild]
    rfl

theorem treat_listItem (marker : Marker) (attributes : Attributes) (elements : List Element) :
    treat setting handed (.listItem marker attributes elements) = do
      return .listItem marker attributes (← through setting handed elements) := by
  cases handed with
  | none =>
    rw [treat, applyElement]
    rfl
  | some steps =>
    rw [treat, applyChild]
    rfl

theorem treat_labeledItem (level : UInt8) (term : Line) (attributes : Attributes)
    (elements : List Element) :
    treat setting handed (.labeledItem level term attributes elements) = do
      let term ← applyInline setting (handed.getD normalSteps) "labeled list term" term
      return .labeledItem level term attributes (← through setting handed elements) := by
  cases handed with
  | none =>
    rw [treat, applyElement]
    rfl
  | some steps =>
    rw [treat, applyChild]
    rfl

theorem treat_continued (offset : Int32) (x : Element) :
    treat setting handed (.continued offset x) = do
      return .continued offset (← treat setting handed x) := by
  cases handed with
  | none => rw [treat, applyElement]
  | some steps => rw [treat, applyChild]

theorem treat_paragraph (attributes : Attributes) (lines : List Line) :
    treat setting handed (.paragraph attributes lines) = do
      let steps ← stepsOr handed (Directive.forParagraph attributes)
      return .paragraph attributes (← applyLines setting steps "paragraph" lines) := by
  cases handed with
  | none => rw [treat, applyElement, stepsOr]
  | some steps => rw [treat, applyChild, stepsOr, pure_bind]

theorem treat_lineBlock (kind : BlockKind) (attributes : Attributes) (lines : List Line) :
    treat setting handed (.lineBlock kind attributes lines) = do
      let steps ← stepsOr handed (Directive.forBlock kind attributes)
      let (attributes, lines) ← moveUnlessHanded setting handed kind attributes lines
      return .lineBlock kind attributes (← applyLines setting steps kind.name lines) := by
  cases handed with
  | none =>
    rw [treat, applyElement, stepsOr]
    rfl
  | some steps => rw [treat, applyChild, stepsOr, moveUnlessHanded, pure_bind, pure_bind]

theorem through_nil : through setting handed [] = pure [] := by
  cases handed with
  | none => rw [through, applyElements]
  | some steps => rw [through, applyChildren]

theorem through_cons (x : Element) (rest : List Element) :
    through setting handed (x :: rest) = do
      return (← treat setting handed x) :: (← through setting handed rest) := by
  cases handed with
  | none =>
    rw [through, applyElements]
    rfl
  | some steps =>
    rw [through, applyChildren]
    rfl

end Treat

/-- Inside a block without a directive and at the top level, blocks come to the same and leave the same
attributes, counters, warnings and records. -/
theorem elementBlock_eq_elements (setting : Setting) (hsteps : kind.steps = normalSteps)
    (hattributes : Undirected attributes) (h : ∀ x ∈ elements, x.Normal) (s : PassState) :
    runFrom s (applyElement setting (.elementBlock kind attributes elements)) =
      ((runFrom s (applyElements setting elements)).1.map (.elementBlock kind attributes),
        (runFrom s (applyElements setting elements)).2) := by
  rw [applyElement_elementBlock hsteps hattributes, runFrom_map,
    applyChildren_eq_applyElements setting h]

def itemWithQuote : List Element :=
  [.listItem (.ordered 1) ∅
    [.paragraph ∅ [[.text "a"]],
      .continued 1 (.elementBlock .quote ∅ [.paragraph ∅ [[.text "<"]], .declaration "b" (.string "c")])],
    .lineBlock .verse ∅ [[.text "d"]], .thematicBreak]

theorem normal_itemWithQuote : ∀ x ∈ itemWithQuote, x.Normal := by
  have hnone : Undirected ∅ := by cbv
  rw [itemWithQuote, List.forall_mem_cons, List.forall_mem_cons, List.forall_mem_singleton]
  refine ⟨.listItem ?_, .lineBlock rfl (by decide) hnone, .leaf trivial⟩
  exact List.forall_mem_cons.mpr
    ⟨.paragraph hnone (by decide), List.forall_mem_singleton.mpr (.continued (.elementBlock rfl hnone))⟩

theorem elementBlock_eq_elements_itemWithQuote :
    runFrom ⟨⟨⟨∅, ∅, ∅⟩, []⟩, []⟩
        (applyElement ⟨Fragment.parse, true⟩ (.elementBlock .exampleBlock ∅ itemWithQuote)) =
      ((runFrom ⟨⟨⟨∅, ∅, ∅⟩, []⟩, []⟩ (applyElements ⟨Fragment.parse, true⟩ itemWithQuote)).1.map
          (.elementBlock .exampleBlock ∅),
        (runFrom ⟨⟨⟨∅, ∅, ∅⟩, []⟩, []⟩ (applyElements ⟨Fragment.parse, true⟩ itemWithQuote)).2) :=
  elementBlock_eq_elements _ rfl (by cbv) normal_itemWithQuote _

end Pass

end Manuscript
