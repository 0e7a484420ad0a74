import Manuscript.Proofs.Header.Scan
import Manuscript.Proofs.Lockstep

namespace Manuscript

open Element (Varies)
open Pass

section Reached

variable {overrides : Dict String} {store : Store}

inductive Store.Reached (overrides : Dict String) : Store → Prop
  | start : Reached overrides (.ofOverrides overrides)
  | addAll {store : Store} {attributes : Attributes} :
      Reached overrides store → Reached overrides (store.addAll attributes)
  | set {store : Store} {name : String} {value : Value} :
      Reached overrides store → Reached overrides (store.set name value)
  | setCount {store : Store} {name : String} {value : Count} :
      Reached overrides store → Reached overrides (store.setCount name value)

theorem Store.Reached.overrides_eq (h : store.Reached overrides) :
    store.overrides = overrides.map .string := by
  induction h with
  | start => rfl
  | addAll _ ih | set _ ih | setCount _ ih => exact ih

theorem lookalike_reached (overrides : Dict String) :
    Lookalike (fun _ => false) fun t t' => t = t' ∧ t.Reached overrides where
  find? h _ := by rw [h.1]
  count h _ := by rw [h.1]
  set h _ _ := ⟨by rw [h.1], h.2.set⟩
  shadow _ _ _ _ hname := by cases hname
  setCount h _ _ := ⟨by rw [h.1], h.2.setCount⟩

theorem reached_applyElements (setting : Setting) (elements : List Element) {s : PassState}
    (h : s.resolution.store.Reached overrides) :
    (runFrom s (applyElements setting elements)).2.resolution.store.Reached overrides := by
  have habreast := abreast_of_lookalike (lookalike_reached overrides) setting.grammar
    setting.tracing setting.tracing
  have hmeet := (habreast.applyElements elements elements (Element.varies_refl _)).meet s s
    ⟨⟨rfl, h⟩, rfl⟩
  generalize runFrom s (applyElements ⟨setting.grammar, setting.tracing⟩ elements) = first at hmeet
  cases hmeet with
  | ok _ hs => exact hs.store.2
  | error hs => exact hs.store.2

theorem reached_prepare {document : Document} {configuration : Configuration}
    {elements : List Element} (h : prepare document configuration = .ok (store, elements)) :
    store.Reached configuration.overrides := by
  obtain ⟨rfl, -⟩ := prepare_cases h
  exact .addAll (.addAll .start)

end Reached

section Shadowed

variable {overrides : Dict String} {shadowed : String → Bool}

structure Store.Shadowed (overrides : Dict String) (t t' : Store) : Prop where
  fixed : t.overrides = overrides.map .string
  fixed' : t'.overrides = overrides.map .string
  counters : t.counters = t'.counters
  live : ∀ name, overrides.contains name = false → t.live.find? name = t'.live.find? name
  ordered : t.live.Ordered
  ordered' : t'.live.Ordered

namespace Store.Shadowed

variable {t t' : Store}

theorem find?_eq (h : t.Shadowed overrides t') (name : String) : t.find? name = t'.find? name := by
  rw [find?, find?, h.fixed, h.fixed', Dict.find?_map]
  cases hname : overrides.find? name with
  | some value => rfl
  | none =>
    have hnot : overrides.contains name = false := by rw [Dict.contains, hname]; rfl
    rw [h.live name hnot]

theorem snapshot_eq (h : t.Shadowed overrides t') : t.snapshot = t'.snapshot := by
  refine (h.ordered.union _).ext (h.ordered'.union _) fun name => ?_
  have hfind := h.find?_eq name
  rwa [← find?_snapshot, ← find?_snapshot] at hfind

theorem insert (h : t.Shadowed overrides t') {name : String} {value value' : Value}
    (hvalue : overrides.contains name = false → value = value') :
    (t.set name value).Shadowed overrides (t'.set name value') where
  fixed := h.fixed
  fixed' := h.fixed'
  counters := h.counters
  live other hother := by
    change (t.live.insert name value).find? other = (t'.live.insert name value').find? other
    rw [Dict.find?_insert, Dict.find?_insert, h.live other hother]
    split
    · next heq => rw [hvalue (heq ▸ hother)]
    · rfl
  ordered := h.ordered.insert name value
  ordered' := h.ordered'.insert name value'

end Store.Shadowed

theorem lookalike_shadowed (overrides : Dict String) :
    Lookalike overrides.contains (Store.Shadowed overrides) where
  find? h := h.find?_eq
  count h _ := by rw [Store.count, Store.count, h.counters]
  set h _ _ := h.insert fun _ => rfl
  shadow h _ _ _ hname := h.insert fun hnot => by rw [hname] at hnot; cases hnot
  setCount h name value :=
    { h with counters := congrArg (·.insert name value) h.counters }

end Shadowed

section Header

open Header (enter)
open Reserved (checkValue checkAll)

variable {shadowed : String → Bool} {name : String} {value value' : Value}

theorem checkValue_eq_ok_iff : checkValue name value = .ok () ↔ value.accepted := by
  cases value
  case string s => cases h : Reserved.isIn s <;> simp [checkValue, Value.accepted, h]
  all_goals exact iff_of_true rfl rfl

theorem checkValue_of_accepted (h : value.accepted) : checkValue name value = .ok () :=
  checkValue_eq_ok_iff.mpr h

inductive EntryVaries (shadowed : String → Bool) : String × Value → String × Value → Prop
  | same {entry : String × Value} : EntryVaries shadowed entry entry
  | shadowed {name : String} {value value' : Value} : shadowed name → value.accepted →
      value'.accepted → EntryVaries shadowed (name, value) (name, value')

theorem EntryVaries.name_eq {entry entry' : String × Value}
    (h : EntryVaries shadowed entry entry') : entry.1 = entry'.1 := by
  cases h <;> rfl

theorem EntryVaries.value_eq {entry entry' : String × Value}
    (h : EntryVaries shadowed entry entry') (hname : shadowed entry.1 = false) :
    entry.2 = entry'.2 := by
  cases h with
  | same => rfl
  | shadowed hshadowed => rw [hshadowed] at hname; cases hname

theorem EntryVaries.checkValue_eq {entry entry' : String × Value}
    (h : EntryVaries shadowed entry entry') :
    checkValue entry.1 entry.2 = checkValue entry'.1 entry'.2 := by
  cases h with
  | same => rfl
  | shadowed _ hvalue hvalue' => rw [checkValue_of_accepted hvalue, checkValue_of_accepted hvalue']

theorem checkAll_cons (entry : String × Value) (rest : List (String × Value)) :
    checkAll ⟨entry :: rest⟩ = checkValue entry.1 entry.2 >>= fun _ => checkAll ⟨rest⟩ := rfl

theorem accepted_of_checkAll {entries : List (String × Value)} (h : checkAll ⟨entries⟩ = .ok ()) :
    ∀ entry ∈ entries, entry.2.accepted := by
  induction entries with
  | nil => exact fun _ => nofun
  | cons entry rest ih =>
    rw [checkAll_cons] at h
    obtain ⟨_, hvalue, hrest⟩ := bind_eq_ok.mp h
    exact List.forall_mem_cons.mpr ⟨checkValue_eq_ok_iff.mp hvalue, ih hrest⟩

def AttributesVary (shadowed : String → Bool) (d d' : Attributes) : Prop :=
  List.Forall₂ (EntryVaries shadowed) d.entries d'.entries

theorem forall₂_insertEntry {entries entries' : List (String × Value)}
    (h : List.Forall₂ (EntryVaries shadowed) entries entries')
    (hvalue : EntryVaries shadowed (name, value) (name, value')) :
    List.Forall₂ (EntryVaries shadowed) (Dict.insertEntry name value entries)
      (Dict.insertEntry name value' entries') := by
  induction h with
  | nil => exact .cons hvalue .nil
  | @cons entry entry' rest rest' hentry hrest ih =>
    obtain ⟨n, v⟩ := entry
    obtain ⟨n', v'⟩ := entry'
    obtain rfl : n = n' := hentry.name_eq
    rw [Dict.insertEntry, Dict.insertEntry]
    split
    · exact .cons hvalue (.cons hentry hrest)
    · split
      · exact .cons hvalue hrest
      · exact .cons hentry ih

namespace AttributesVary

variable {d d' : Attributes}

theorem insert (h : AttributesVary shadowed d d')
    (hvalue : EntryVaries shadowed (name, value) (name, value')) :
    AttributesVary shadowed (d.insert name value) (d'.insert name value') :=
  forall₂_insertEntry h hvalue

theorem union (h : AttributesVary shadowed d d') (other : Attributes) :
    AttributesVary shadowed (d.union other) (d'.union other) := by
  rw [Dict.union, Dict.union]
  induction other.entries with
  | nil => exact h
  | cons entry rest ih => exact ih.insert .same

theorem find?_eq (h : AttributesVary shadowed d d') (hname : shadowed name = false) :
    d.find? name = d'.find? name := by
  obtain ⟨entries⟩ := d
  obtain ⟨entries'⟩ := d'
  change List.Forall₂ _ entries entries' at h
  rw [Dict.find?, Dict.find?]
  induction h with
  | nil => rfl
  | @cons entry entry' rest rest' hentry hrest ih =>
    rw [Dict.findEntry, Dict.findEntry, ← hentry.name_eq]
    split
    · next heq => rw [hentry.value_eq (heq ▸ hname)]
    · exact ih

theorem checkAll_eq (h : AttributesVary shadowed d d') : checkAll d = checkAll d' := by
  obtain ⟨entries⟩ := d
  obtain ⟨entries'⟩ := d'
  change List.Forall₂ _ entries entries' at h
  induction h with
  | nil => rfl
  | cons hentry _ ih => rw [checkAll_cons, checkAll_cons, hentry.checkValue_eq, ih]

end AttributesVary

theorem enter_of_declared {x : Element} (h : x.declared? = some (name, value))
    (found : Attributes) : enter found x = found.insert name value := by
  obtain rfl | ⟨rfl, rfl⟩ := Element.eq_of_declared? h <;> rfl

theorem attributesVary_enter {found found' : Attributes} (h : AttributesVary shadowed found found')
    {x y : Element} (hxy : Varies shadowed x y) :
    AttributesVary shadowed (enter found x) (enter found' y) := by
  cases hxy with
  | same =>
    cases x
    case sectionBlock => exact (h.union _).union _
    case declaration | reset => exact h.insert .same
    all_goals exact h
  | declared hx hy hname hvalue hvalue' =>
    rw [enter_of_declared hx, enter_of_declared hy]
    exact h.insert (.shadowed hname hvalue hvalue')
  | sectionBlock => exact (h.union _).union _
  | elementBlock | listItem | labeledItem | continued => exact h

theorem inHeader_of_declared {x : Element} (h : x.declared? = some (name, value)) :
    inHeader x = true := by
  obtain rfl | ⟨rfl, rfl⟩ := Element.eq_of_declared? h <;> rfl

theorem inHeader_eq {x y : Element} (h : Varies shadowed x y) : inHeader x = inHeader y := by
  cases h with
  | declared hx hy => rw [inHeader_of_declared hx, inHeader_of_declared hy]
  | same | sectionBlock | elementBlock | listItem | labeledItem | continued => rfl

theorem withoutCredits_of_declared {x : Element} (h : x.declared? = some (name, value)) :
    withoutCredits x = x := by
  obtain rfl | ⟨rfl, rfl⟩ := Element.eq_of_declared? h <;> rfl

theorem varies_withoutCredits {x y : Element} (h : Varies shadowed x y) :
    Varies shadowed (withoutCredits x) (withoutCredits y) := by
  cases h with
  | same => exact .same
  | declared hx hy hname hvalue hvalue' =>
    rw [withoutCredits_of_declared hx, withoutCredits_of_declared hy]
    exact .declared hx hy hname hvalue hvalue'
  | sectionBlock helements => exact .sectionBlock helements
  | elementBlock helements => exact .elementBlock helements
  | listItem helements => exact .listItem helements
  | labeledItem helements => exact .labeledItem helements
  | continued hinside => exact .continued hinside

theorem forall₂_span {α : Type} {R : α → α → Prop} {p : α → Bool}
    (hp : ∀ a b, R a b → p a = p b) {as bs : List α} (h : List.Forall₂ R as bs) :
    List.Forall₂ R (as.takeWhile p) (bs.takeWhile p) ∧
      List.Forall₂ R (as.dropWhile p) (bs.dropWhile p) := by
  induction h with
  | nil => exact ⟨.nil, .nil⟩
  | @cons a b as bs hab habs ih =>
    rw [List.takeWhile_cons, List.takeWhile_cons, List.dropWhile_cons, List.dropWhile_cons,
      hp a b hab]
    cases p b with
    | true => exact ⟨.cons hab ih.1, ih.2⟩
    | false => exact ⟨.nil, .cons hab habs⟩

theorem attributesVary_collect {xs ys : List Element}
    (h : List.Forall₂ (Varies shadowed) xs ys) :
    AttributesVary shadowed (Header.collect ∅ xs).1 (Header.collect ∅ ys).1 := by
  rw [Header.collect_fst, Header.collect_fst]
  have hheader := (forall₂_span (fun _ _ hxy => inHeader_eq hxy) h).1
  have henter : Relator.LiftFun (AttributesVary shadowed)
      (Relator.LiftFun (Varies shadowed) (AttributesVary shadowed)) enter enter :=
    fun _ _ hfound _ _ hxy => attributesVary_enter hfound hxy
  exact List.rel_foldl henter .nil hheader

theorem varies_afterHeader {xs ys : List Element} (h : List.Forall₂ (Varies shadowed) xs ys) :
    List.Forall₂ (Varies shadowed) (afterHeader xs) (afterHeader ys) := by
  obtain ⟨hheader, hrest⟩ := forall₂_span (fun _ _ hxy => inHeader_eq hxy) h
  have hcredits : Relator.LiftFun (Varies shadowed) (Varies shadowed) withoutCredits withoutCredits :=
    fun _ _ hxy => varies_withoutCredits hxy
  exact List.rel_append (List.rel_map hcredits hheader) hrest

end Header

section Document

open Reserved (checkValue checkAll)

variable {shadowed : String → Bool} {overrides : Dict String} {document document' : Document}
  {configuration : Configuration} {grammar : Grammar}

def FrontMatter.Varies (shadowed : String → Bool) (d d' : Attributes) : Prop :=
  d.entries.filter (fun entry => !(shadowed entry.1 && entry.2.accepted)) =
    d'.entries.filter fun entry => !(shadowed entry.1 && entry.2.accepted)

structure Document.Varies (shadowed : String → Bool) (document document' : Document) : Prop where
  frontMatter : FrontMatter.Varies shadowed (document.frontMatter.getD ∅)
    (document'.frontMatter.getD ∅)
  elements : List.Forall₂ (Element.Varies shadowed) document.elements document'.elements

structure Draft.Varies (shadowed : String → Bool) (draft draft' : Draft) : Prop where
  attributes : draft.attributes = draft'.attributes
  elements : List.Forall₂ (Element.Varies shadowed) draft.elements draft'.elements
  notes : draft.notes = draft'.notes
  warnings : draft.warnings = draft'.warnings

theorem checkAll_filter (entries : List (String × Value)) :
    checkAll ⟨entries.filter fun entry => !(shadowed entry.1 && entry.2.accepted)⟩ =
      checkAll ⟨entries⟩ := by
  induction entries with
  | nil => rfl
  | cons entry rest ih =>
    rw [List.filter_cons]
    split
    · rw [checkAll_cons, checkAll_cons, ih]
    · next hleft =>
      have haccepted : entry.2.accepted = true := by simp_all
      rw [checkAll_cons, checkValue_of_accepted haccepted, ih]
      rfl

theorem findEntry_filter {name : String} (hname : shadowed name = false)
    (entries : List (String × Value)) :
    Dict.findEntry name
        (entries.filter fun entry => !(shadowed entry.1 && entry.2.accepted)) =
      Dict.findEntry name entries := by
  induction entries with
  | nil => rfl
  | cons entry rest ih =>
    rw [List.filter_cons]
    split
    · rw [Dict.findEntry, Dict.findEntry, ih]
    · next hleft =>
      have hne : entry.1 ≠ name := by
        rintro rfl
        simp [hname] at hleft
      rw [Dict.findEntry, if_neg hne, ih]

namespace FrontMatter.Varies

variable {d d' : Attributes}

theorem checkAll_eq (h : FrontMatter.Varies shadowed d d') : checkAll d = checkAll d' := by
  rw [← checkAll_filter d.entries, ← checkAll_filter d'.entries, h]

theorem find?_eq (h : FrontMatter.Varies shadowed d d') {name : String}
    (hname : shadowed name = false) : d.find? name = d'.find? name := by
  have hleft := findEntry_filter hname d.entries
  rw [h, findEntry_filter hname] at hleft
  exact hleft.symm

end FrontMatter.Varies

theorem Element.Varies.offending?_eq {x y : Element} (h : Varies shadowed x y) :
    Reserved.offending? x = Reserved.offending? y := by
  have hnone {x : Element} {name : String} {value : Value} (h : x.declared? = some (name, value))
      (hvalue : value.accepted) : Reserved.offending? x = none := by
    obtain rfl | ⟨rfl, rfl⟩ := Element.eq_of_declared? h
    · cases value
      case string s =>
        rw [Value.accepted, Bool.not_eq_true'] at hvalue
        rw [Reserved.offending?, if_neg (by simp [hvalue])]
      all_goals rfl
    · rfl
  cases h with
  | declared hx hy _ hvalue hvalue' => rw [hnone hx hvalue, hnone hy hvalue']
  | same | sectionBlock | elementBlock | listItem | labeledItem | continued => rfl

theorem Element.Varies.referring?_eq {x y : Element} (h : Varies shadowed x y) :
    Footnotes.referring? x = Footnotes.referring? y := by
  have hnone {x : Element} {name : String} {value : Value} (h : x.declared? = some (name, value)) :
      Footnotes.referring? x = none := by
    obtain rfl | ⟨rfl, rfl⟩ := Element.eq_of_declared? h <;> rfl
  cases h with
  | declared hx hy => rw [hnone hx, hnone hy]
  | same | sectionBlock | elementBlock | listItem | labeledItem | continued => rfl

theorem shadowed_start {frontMatter frontMatter' header header' : Attributes}
    (hfrontMatter : FrontMatter.Varies overrides.contains frontMatter frontMatter')
    (hheader : AttributesVary overrides.contains header header') :
    Store.Shadowed overrides (((Store.ofOverrides overrides).addAll frontMatter).addAll header)
      (((Store.ofOverrides overrides).addAll frontMatter').addAll header') where
  fixed := rfl
  fixed' := rfl
  counters := rfl
  live name hname := by
    simp only [Store.addAll, Dict.find?_union, hheader.find?_eq hname, hfrontMatter.find?_eq hname]
  ordered := (Dict.ordered_empty.union _).union _
  ordered' := (Dict.ordered_empty.union _).union _

theorem joint_prepare (h : Document.Varies configuration.overrides.contains document document') :
    Joint (fun p q => p.1.Shadowed configuration.overrides q.1 ∧
        List.Forall₂ (Varies configuration.overrides.contains) p.2 q.2)
      (prepare document configuration) (prepare document' configuration) := by
  have hvisit (x y : Element) (hxy : Varies configuration.overrides.contains x y) :=
    congrArg (·.map fun s => (throw (.of (.reserved s)) : Except Fault Element)) hxy.offending?_eq
  refine (joint_walk hvisit h.elements).bind fun xs ys hxs => ?_
  have hheader := attributesVary_collect hxs
  -- The overrides are checked, then the front matter and then the header.
  refine .bind_same _ fun _ => ?_
  dsimp only
  rw [h.frontMatter.checkAll_eq]
  refine .bind_same _ fun _ => ?_
  rw [hheader.checkAll_eq]
  refine .bind_same _ fun _ => .pure ⟨?_, ?_⟩
  · exact shadowed_start h.frontMatter hheader
  · rw [collect_snd, collect_snd]
    exact varies_afterHeader hxs

theorem matched_drafted {first second : Except Fault (List Element) × PassState}
    (h : Meet (PassState.Alike (Store.Shadowed overrides)) (PassState.Alike (Store.Shadowed overrides))
      (List.Forall₂ (Varies overrides.contains)) first second) :
    Matched (fun traced traced' => Draft.Varies overrides.contains traced.1 traced'.1 ∧
        traced.1.frontMatter = document.frontMatter ∧ traced'.1.frontMatter = document'.frontMatter)
      (drafted document first) (drafted document' second) := by
  cases h with
  | error _ => exact .error
  | @ok xs ys s s' hvaries hs =>
    have hreplace := joint_walk (m := StateM Footnotes)
      (fun _ _ hxy => Element.Varies.referring?_eq hxy) hvaries
    obtain ⟨hfinal, hfootnotes⟩ := hreplace.run ⟨[], s.resolution.warnings⟩
    rw [drafted, drafted, ← hs.warnings, ← hs.store.snapshot_eq]
    refine .ok ⟨⟨rfl, hfinal, ?_, ?_⟩, rfl, rfl⟩
    · exact congrArg (·.notes) hfootnotes
    · exact congrArg (·.warnings) hfootnotes

theorem matched_substitute (grammar : Grammar)
    (h : Document.Varies configuration.overrides.contains document document') :
    Matched (fun draft draft' => Draft.Varies configuration.overrides.contains draft draft' ∧
        draft.frontMatter = document.frontMatter ∧ draft'.frontMatter = document'.frontMatter)
      (substitute grammar document configuration) (substitute grammar document' configuration) := by
  have hprepare := (joint_prepare h).matched
  rw [substitute, substitute]
  generalize hfirst : prepare document configuration = first at hprepare
  generalize hsecond : prepare document' configuration = second at hprepare
  cases hprepare with
  | error =>
    rw [run_of_prepare_error _ hfirst, run_of_prepare_error _ hsecond]
    exact .error
  | ok hstart =>
    rw [run_of_prepare _ hfirst, run_of_prepare _ hsecond]
    have habreast := abreast_of_lookalike (lookalike_shadowed configuration.overrides) grammar
      false false
    have hmeet := (habreast.applyElements _ _ hstart.2).meet ⟨⟨_, []⟩, []⟩ ⟨⟨_, []⟩, []⟩
      ⟨hstart.1, rfl⟩
    exact (matched_drafted hmeet).map fun _ _ => id

theorem accepted_of_prepare {prepared : Store × List Element}
    (h : prepare document configuration = .ok prepared) :
    ∀ entry ∈ (document.frontMatter.getD ∅).entries, entry.2.accepted := by
  rw [prepare] at h
  obtain ⟨_, -, h⟩ := bind_eq_ok.mp h
  obtain ⟨_, -, h⟩ := bind_eq_ok.mp h
  obtain ⟨_, hfrontMatter, -⟩ := bind_eq_ok.mp h
  exact accepted_of_checkAll hfrontMatter

theorem prepare_error_of_frontMatter {entry : String × Value}
    (hentry : entry ∈ (document.frontMatter.getD ∅).entries) (hvalue : entry.2.accepted = false) :
    ∃ fault, prepare document configuration = .error fault ∧
      substitute grammar document configuration = .error fault := by
  cases hprepare : prepare document configuration with
  | error fault => exact ⟨fault, rfl, by rw [substitute, run_of_prepare_error _ hprepare]; rfl⟩
  | ok prepared =>
    rw [accepted_of_prepare hprepare entry hentry] at hvalue
    cases hvalue

/-- What documents declare for overridden names makes no difference but in the declarations themselves and in
the front matter. Every store of a pass has the overrides it started with, and its snapshot is what its
lookup finds. -/
theorem overrides_shadow_declarations (grammar : Grammar) (configuration : Configuration) :
    (∀ document document',
      Document.Varies configuration.overrides.contains document document' →
      Matched (fun draft draft' => Draft.Varies configuration.overrides.contains draft draft' ∧
          draft.frontMatter = document.frontMatter ∧ draft'.frontMatter = document'.frontMatter)
        (substitute grammar document configuration) (substitute grammar document' configuration)) ∧
    (∀ document store elements, prepare document configuration = .ok (store, elements) →
      store.Reached configuration.overrides) ∧
    (∀ setting elements s, s.resolution.store.Reached configuration.overrides →
      (runFrom s (applyElements setting elements)).2.resolution.store.Reached
        configuration.overrides) ∧
    ∀ store : Store, store.Reached configuration.overrides →
      store.overrides = configuration.overrides.map .string ∧
        ∀ name, store.snapshot.find? name = store.find? name :=
  ⟨fun _ _ h => matched_substitute grammar h, fun _ _ _ h => reached_prepare h,
    fun setting elements _ h => reached_applyElements setting elements h,
    fun store h => ⟨h.overrides_eq, store.find?_snapshot⟩⟩

def overriding : Configuration := Configuration.empty.override "a" "b"

def declaring : Document :=
  ⟨some (Dict.ofList [("a", .string "x")]),
    [.declaration "a" (.string "y"), .paragraph ∅ [[.text "\x7ba\x7d"]]]⟩

def resetting : Document := ⟨none, [.reset "a", .paragraph ∅ [[.text "\x7ba\x7d"]]]⟩

theorem varies_declaring_resetting :
    Document.Varies overriding.overrides.contains declaring resetting where
  frontMatter := rfl
  elements := .cons (.declared rfl rfl (by decide) (by decide) rfl) (Element.varies_refl _)

def declaredStore : Store :=
  ⟨Dict.ofList [("a", .string "y")], Dict.ofList [("a", .string "b")], ∅⟩

theorem prepare_declaring :
    prepare declaring overriding = .ok (declaredStore, declaring.elements) := by
  with_unfolding_all rfl

theorem overrides_shadow_declarations_of_reset :
    Matched (fun draft draft' => Draft.Varies overriding.overrides.contains draft draft' ∧
        draft.frontMatter = declaring.frontMatter ∧ draft'.frontMatter = none)
      (substitute Fragment.parse declaring overriding)
      (substitute Fragment.parse resetting overriding) ∧
    (runFrom ⟨⟨declaredStore, []⟩, []⟩ (applyElements ⟨Fragment.parse, false⟩
      declaring.elements)).2.resolution.store.overrides = Dict.ofList [("a", .string "b")] := by
  obtain ⟨hmatched, hstart, hpass, hstores⟩ :=
    overrides_shadow_declarations Fragment.parse overriding
  have hreached := hpass ⟨Fragment.parse, false⟩ declaring.elements ⟨⟨declaredStore, []⟩, []⟩
    (hstart _ _ _ prepare_declaring)
  exact ⟨hmatched declaring resetting varies_declaring_resetting, (hstores _ hreached).1⟩

theorem front_matter_checked_under_override :
    overriding.overrides.contains "a" = true ∧
      substitute Fragment.parse ⟨some (Dict.ofList [("a", .string "\uFFFD")]), []⟩ overriding =
        .error ((Fault.of (.reserved "\uFFFD")).within (.inAttribute "a")) ∧
      substitute Fragment.parse ⟨none, []⟩ overriding =
        .ok ⟨Dict.ofList [("a", .string "b")], none, [], [], []⟩ :=
  ⟨by decide, by with_unfolding_all rfl, by with_unfolding_all rfl⟩

end Document

end Manuscript
