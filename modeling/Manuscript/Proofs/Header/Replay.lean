import Mathlib.Data.List.TakeWhile
import Manuscript.Proofs.Overrides
import Manuscript.Proofs.Steady

namespace Manuscript

open Pass

namespace Header

inductive Part : Element → Prop
  | declaration {name : String} {value : Value} : Part (.declaration name value)
  | reset {name : String} : Part (.reset name)
  | blankLine : Part .blankLine
  | comment {s : String} : Part (.comment s)
  | title {attributes : Attributes} {title : Line} :
      (∀ x ∈ title, x.isText) → Part (.sectionBlock 0 attributes title [])

def declare (live : Attributes) (x : Element) : Attributes :=
  match x.declared? with
  | some (name, value) => live.insert name value
  | none => live

section Last

variable {name : String} {value : Value} {value? : Element → Option Value} {x : Element}
  {elements before after : List Element}

theorem find?_declare (live : Attributes) (x : Element) :
    (declare live x).find? name = (declared? name x).or (live.find? name) := by
  rw [declare, declared?]
  cases x.declared? with
  | none => rfl
  | some declared =>
    obtain ⟨other, value⟩ := declared
    by_cases h : other = name <;> simp [Dict.find?_insert, h]

theorem last?_append_cons (h : ∀ y ∈ after, value? y = none) :
    last? value? (before ++ x :: after) = (value? x).or (last? value? before) := by
  have hafter : after.reverse.findSome? value? = none :=
    List.findSome?_eq_none_iff.mpr fun y hy => h y (List.mem_reverse.mp hy)
  rw [last?, last?, List.reverse_append, List.reverse_cons, List.findSome?_append,
    List.findSome?_append, hafter]
  cases hx : value? x <;> simp [hx]

theorem exists_of_last? (h : last? value? elements = some value) :
    ∃ before x after, elements = before ++ x :: after ∧ value? x = some value ∧
      ∀ y ∈ after, value? y = none := by
  obtain ⟨front, x, back, heq, hx, hnone⟩ := List.findSome?_eq_some_iff.mp h
  refine ⟨back.reverse, x, front.reverse, ?_, hx, fun y hy => hnone y (List.mem_reverse.mp hy)⟩
  rw [← List.reverse_reverse elements, heq]
  simp

def Overtaken (name : String) (elements : List Element) : Prop :=
  ∃ before level attributes title inside after value declared,
    elements = before ++ .sectionBlock level attributes title inside :: after ∧
      credited? name attributes = some value ∧ (∀ y ∈ after, written? name y = none) ∧
      last? (declared? name) before = some declared ∧ value ≠ declared

theorem declared?_of_written? {y : Element} (h : written? name y = none) :
    declared? name y = none := by
  cases y
  case sectionBlock => rfl
  all_goals exact h

theorem overtaken_iff (h : last? (written? name) elements = some value) :
    Overtaken name elements ↔
      ∃ declared, last? (declared? name) elements = some declared ∧ value ≠ declared := by
  constructor
  · rintro ⟨before, level, attributes, title, inside, after, written, declared, rfl, hcredited,
      hafter, hdeclared, hne⟩
    rw [last?_append_cons hafter] at h
    obtain rfl : written = value := by
      rw [written?, hcredited] at h
      exact Option.some.inj h
    refine ⟨declared, ?_, hne⟩
    rw [last?_append_cons fun y hy => declared?_of_written? (hafter y hy)]
    exact hdeclared
  · rintro ⟨declared, hdeclared, hne⟩
    obtain ⟨before, x, after, rfl, hx, hafter⟩ := exists_of_last? h
    rw [last?_append_cons fun y hy => declared?_of_written? (hafter y hy)] at hdeclared
    cases x
    case sectionBlock level attributes title inside =>
      exact ⟨before, level, attributes, title, inside, after, value, declared, rfl, hx, hafter,
        hdeclared, hne⟩
    all_goals
      have hsame : declared? name _ = some value := hx
      rw [hsame] at hdeclared
      exact absurd (Option.some.inj hdeclared) hne

end Last

theorem inHeader_of_part {x : Element} (h : Part x) : inHeader x = true := by
  cases h <;> rfl

theorem declared?_withoutCredits (x : Element) : (withoutCredits x).declared? = x.declared? := by
  cases x <;> rfl

theorem declare_withoutCredits (live : Attributes) (x : Element) :
    declare live (withoutCredits x) = declare live x := by
  rw [declare, declare, declared?_withoutCredits]

theorem part_withoutCredits {x : Element} (h : Part x) : Part (withoutCredits x) := by
  cases h with
  | title htitle => exact .title htitle
  | declaration => exact .declaration
  | reset => exact .reset
  | blankLine => exact .blankLine
  | comment => exact .comment

section Live

variable {grammar : Grammar} {tracing : Bool} {x y : Element} {elements substituted : List Element}
  {s s' : PassState} (hgrammar : grammar.Inert)
include hgrammar

theorem live_applyElement (hx : Part x)
    (h : runFrom s (applyElement ⟨grammar, tracing⟩ x) = (.ok y, s')) :
    s'.resolution.store.live = declare s.resolution.store.live x := by
  cases hx with
  | declaration | reset | blankLine | comment =>
    cases h
    rfl
  | @title attributes title htitle =>
    rw [applyElement, applyTitle] at h
    obtain ⟨_, s₁, h, hbody⟩ := runFrom_bind_eq_ok.mp h
    obtain ⟨read, s₂, hread, h⟩ := runFrom_bind_eq_ok.mp h
    cases h
    cases hbody
    have hinert := everywhere_of_text htitle fun t _ => inert_text t
    exact live_applyInline hgrammar hinert hread

theorem live_applyElements (hparts : ∀ x ∈ elements, Part x)
    (h : runFrom s (applyElements ⟨grammar, tracing⟩ elements) = (.ok substituted, s')) :
    s'.resolution.store.live = elements.foldl declare s.resolution.store.live := by
  induction elements generalizing s substituted with
  | nil =>
    cases h
    rfl
  | cons x rest ih =>
    obtain ⟨hx, hrest⟩ := List.forall_mem_cons.mp hparts
    rw [applyElements] at h
    obtain ⟨_, s₁, hfirst, h⟩ := runFrom_bind_eq_ok.mp h
    obtain ⟨_, s₂, hothers, h⟩ := runFrom_bind_eq_ok.mp h
    cases h
    rw [ih hrest hothers, live_applyElement hgrammar hx hfirst, List.foldl_cons]

end Live

variable {grammar : Grammar} {document : Document} {configuration : Configuration} {draft : Draft}
  {name : String} {value : Value}

theorem find?_collect_of_parts {elements : List Element} (hparts : ∀ x ∈ elements, Part x) :
    (collect ∅ elements).1.find? name = last? (written? name) elements := by
  rw [find?_collect, List.takeWhile_eq_self_iff.mpr fun x hx => inHeader_of_part (hparts x hx)]

theorem afterHeader_of_parts {elements : List Element} (hparts : ∀ x ∈ elements, Part x) :
    afterHeader elements = elements.map withoutCredits := by
  have hall (x : Element) (hx : x ∈ elements) : inHeader x = true := inHeader_of_part (hparts x hx)
  rw [afterHeader, List.takeWhile_eq_self_iff.mpr hall, List.dropWhile_eq_nil_iff.mpr hall,
    List.append_nil]

theorem find?_draft (hgrammar : grammar.Inert) (hparts : ∀ x ∈ document.elements, Part x)
    (h : substitute grammar document configuration = .ok draft)
    (hfree : configuration.overrides.contains name = false)
    (hfound : (collect ∅ document.elements).1.find? name = some value) :
    draft.attributes.find? name = (last? (declared? name) document.elements).or (some value) := by
  obtain ⟨records, htrace⟩ := exists_trace_of_substitute h
  obtain ⟨store, elements, substituted, state, hprepare, hrun, final, footnotes, -, rfl, -⟩ :=
    run_cases htrace
  have hreached := reached_applyElements ⟨grammar, true⟩ elements (s := ⟨⟨store, []⟩, []⟩)
    (reached_prepare hprepare)
  rw [hrun] at hreached
  obtain ⟨rfl, rfl⟩ := prepare_cases hprepare
  rw [collect_snd, afterHeader_of_parts hparts] at hrun
  have hafter : ∀ x ∈ document.elements.map withoutCredits, Part x :=
    List.forall_mem_map.mpr fun x hx => part_withoutCredits (hparts x hx)
  have hlive := live_applyElements hgrammar hafter hrun
  simp only [List.foldl_map, declare_withoutCredits] at hlive
  have hnone : configuration.overrides.find? name = none := by simpa [Dict.contains] using hfree
  change state.resolution.store.snapshot.find? name = _
  rw [Store.find?_snapshot, Store.find?, hreached.overrides_eq, Dict.find?_map, hnone, hlive,
    find?_foldl find?_declare, Store.addAll, Dict.find?_union, hfound]
  rfl

/-- The scan finds what was written last for a name. The pass keeps it just if no title took the name over
from a declaration. -/
theorem replay_agrees_iff (hgrammar : grammar.Inert) (hparts : ∀ x ∈ document.elements, Part x)
    (h : substitute grammar document configuration = .ok draft)
    (hfree : configuration.overrides.contains name = false)
    (hfound : (collect ∅ document.elements).1.find? name = some value) :
    last? (written? name) document.elements = some value ∧
      draft.attributes.find? name =
        (last? (declared? name) document.elements).or (some value) ∧
      (draft.attributes.find? name = some value ↔ ¬ Overtaken name document.elements) := by
  have hlast : last? (written? name) document.elements = some value := by
    rw [← find?_collect_of_parts hparts, hfound]
  have hdraft := find?_draft hgrammar hparts h hfree hfound
  refine ⟨hlast, hdraft, ?_⟩
  rw [hdraft, overtaken_iff hlast]
  cases last? (declared? name) document.elements with
  | none => simp
  | some declared => simp [eq_comm]

section Late

def lateTitle : Document :=
  ⟨none, [.declaration "author" (.string "x"),
    .sectionBlock 0 (Dict.ofList [("authors", .authors [⟨"Y", none⟩])]) [.text "<"] []]⟩

def lateTitleDraft : Draft where
  attributes := Dict.ofList [("author", .string "x"), ("authorinitials", .string "Y"),
    ("authors", .authors [⟨"Y", none⟩]), ("firstname", .string "Y")]
  frontMatter := none
  elements := [.declaration "author" (.string "x"),
    .sectionBlock 0 (Dict.ofList [("id", .string "_")]) [.special "<"] []]
  notes := []
  warnings := []

set_option maxRecDepth 4096 in
theorem substitute_lateTitle :
    substitute Fragment.parse lateTitle Configuration.empty = .ok lateTitleDraft := by
  with_unfolding_all rfl

theorem parts_lateTitle : ∀ x ∈ lateTitle.elements, Part x := by
  rw [lateTitle]
  simp only [List.forall_mem_cons]
  exact ⟨.declaration, .title (by simp [Element.isText]), fun _ => nofun⟩

theorem replay_agrees_iff_lateTitle :
    last? (written? "firstname") lateTitle.elements = some (.string "Y") ∧
      lateTitleDraft.attributes.find? "firstname" = some (.string "Y") ∧
      ¬ Overtaken "firstname" lateTitle.elements := by
  have hfound : (collect ∅ lateTitle.elements).1.find? "firstname" = some (.string "Y") := by
    with_unfolding_all rfl
  have hdraft : lateTitleDraft.attributes.find? "firstname" = some (.string "Y") := rfl
  obtain ⟨hlast, -, hiff⟩ := replay_agrees_iff Fragment.parse_inert parts_lateTitle
    substitute_lateTitle rfl hfound
  exact ⟨hlast, hdraft, hiff.mp hdraft⟩

theorem declaration_replayed_over_title :
    substitute Fragment.parse lateTitle Configuration.empty = .ok lateTitleDraft ∧
      (collect ∅ lateTitle.elements).1.find? "author" = some (.string "Y") ∧
      last? (written? "author") lateTitle.elements = some (.string "Y") ∧
      lateTitleDraft.attributes.find? "author" = some (.string "x") :=
  ⟨substitute_lateTitle, by with_unfolding_all rfl, by with_unfolding_all rfl, rfl⟩

end Late

end Header

end Manuscript
