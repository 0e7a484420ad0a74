import Mathlib.Logic.Basic
import Manuscript.Proofs.Filling
import Manuscript.Location

namespace Manuscript

def Value.sequences : Value → List (List Element)
  | .elements content => [content]
  | _ => []

theorem sequencesOf_eq_flatMap (entries : List (String × Value)) :
    sequencesOf entries = entries.flatMap fun entry => entry.2.sequences := by
  induction entries with
  | nil => rfl
  | cons entry rest ih =>
    obtain ⟨name, value⟩ := entry
    cases value <;> simp [sequencesOf, Value.sequences, ih]

namespace Element

/-- The sequences that an element holds without owning them: those in the attributes of blocks and in
declared values. -/
def held : Element → List (List Element)
  | .sectionBlock _ attributes _ _ => sequencesOf attributes.entries
  | .paragraph attributes _ => sequencesOf attributes.entries
  | .lineBlock _ attributes _ => sequencesOf attributes.entries
  | .elementBlock _ attributes _ => sequencesOf attributes.entries
  | .imageBlock _ attributes => sequencesOf attributes.entries
  | .listItem _ attributes _ => sequencesOf attributes.entries
  | .labeledItem _ _ attributes _ => sequencesOf attributes.entries
  | .declaration _ value => value.sequences
  | .continued _ element => element.held
  | _ => []

theorem held_withChildren (element : Element) (sequences : List (List Element)) :
    (element.withChildren sequences).held = element.held := by
  fun_induction withChildren element sequences <;> simp_all [held]

end Element

/-- Every element of a sequence has the property, and so has every element inside it. -/
inductive Everywhere (p : Element → Prop) : List Element → Prop
  | intro {elements : List Element} : (∀ x ∈ elements, p x) →
      (∀ x ∈ elements, ∀ s ∈ x.children ++ x.held, Everywhere p s) → Everywhere p elements

def Element.Throughout (p : Element → Prop) (element : Element) : Prop :=
  p element ∧ (∀ s ∈ element.children, Everywhere p s) ∧ ∀ s ∈ element.held, Everywhere p s

/-- All that is neither an event nor inside one has the property. -/
inductive Around (p : Element → Prop) {ε : Type} (event? : Element → Option ε) :
    List Element → Prop
  | intro {elements : List Element} :
      (∀ x ∈ elements, event? x = none → p x ∧ ∀ s ∈ x.held, Everywhere p s) →
      (∀ x ∈ elements, event? x = none → ∀ s ∈ x.children, Around p event? s) →
      Around p event? elements

section

variable {p q : Element → Prop}

theorem everywhere_iff {elements : List Element} :
    Everywhere p elements ↔ ∀ x ∈ elements, x.Throughout p := by
  constructor
  · rintro ⟨hp, hs⟩ x hx
    obtain ⟨hchildren, hheld⟩ := List.forall_mem_append.mp (hs x hx)
    exact ⟨hp x hx, hchildren, hheld⟩
  · intro h
    exact .intro (fun x hx => (h x hx).1) fun x hx => List.forall_mem_append.mpr (h x hx).2

theorem everywhere_nil : Everywhere p [] :=
  everywhere_iff.mpr fun _ hx => absurd hx List.not_mem_nil

theorem everywhere_cons {x : Element} {xs : List Element} :
    Everywhere p (x :: xs) ↔ x.Throughout p ∧ Everywhere p xs := by
  rw [everywhere_iff, everywhere_iff, List.forall_mem_cons]

theorem everywhere_append {xs ys : List Element} :
    Everywhere p (xs ++ ys) ↔ Everywhere p xs ∧ Everywhere p ys := by
  rw [everywhere_iff, everywhere_iff, everywhere_iff, List.forall_mem_append]

theorem everywhere_singleton {x : Element} : Everywhere p [x] ↔ x.Throughout p := by
  rw [everywhere_iff, List.forall_mem_singleton]

theorem everywhere_map {α : Type} {f : α → Element} {as : List α}
    (h : ∀ a ∈ as, Everywhere p [f a]) : Everywhere p (as.map f) := by
  rw [everywhere_iff, List.forall_mem_map]
  exact fun a ha => everywhere_singleton.mp (h a ha)

theorem everywhere_iff_visited {elements : List Element} : Everywhere p elements ↔
    ∀ x, Visited x elements → p x ∧ ∀ s ∈ x.held, Everywhere p s := by
  constructor
  · intro h x hx
    induction hx with
    | here hmem => exact ⟨(everywhere_iff.mp h x hmem).1, (everywhere_iff.mp h x hmem).2.2⟩
    | inside hy hs _ ih => exact ih ((everywhere_iff.mp h _ hy).2.1 _ hs)
  · intro h
    induction elements using sequence_induction with
    | step elements ih =>
      refine everywhere_iff.mpr fun y hy => ⟨(h y (.here hy)).1, fun s hs => ?_, (h y (.here hy)).2⟩
      exact ih y hy s hs fun x hx => h x (.inside hy hs hx)

theorem throughout_of_visited {elements : List Element} {x : Element}
    (h : Everywhere p elements) (hx : Visited x elements) : x.Throughout p := by
  induction hx with
  | here hmem => exact everywhere_iff.mp h _ hmem
  | inside hy hs _ ih => exact ih ((everywhere_iff.mp h _ hy).2.1 _ hs)

theorem Everywhere.mono {elements : List Element} (h : Everywhere p elements)
    (hpq : ∀ x, p x → q x) : Everywhere q elements := by
  induction h with
  | intro hp _ ih => exact .intro (fun x hx => hpq x (hp x hx)) ih

theorem Everywhere.and {elements : List Element} (hp : Everywhere p elements)
    (hq : Everywhere q elements) : Everywhere (fun x => p x ∧ q x) elements := by
  induction hp with
  | intro hp _ ih =>
    obtain ⟨hq, hinside⟩ := hq
    exact .intro (fun x hx => ⟨hp x hx, hq x hx⟩) fun x hx s hs => ih x hx s hs (hinside x hx s hs)

@[simp] theorem throughout_text {s : String} : (Element.text s).Throughout p ↔ p (.text s) := by
  simp [Element.Throughout, Element.children, Element.held]

theorem throughout_of_leaf {x : Element} (hchildren : x.children = []) (hheld : x.held = []) :
    x.Throughout p ↔ p x := by
  simp [Element.Throughout, hchildren, hheld]

theorem everywhere_leaf {x : Element} (h : p x) (hchildren : x.children = [])
    (hheld : x.held = []) : Everywhere p [x] :=
  everywhere_singleton.mpr ((throughout_of_leaf hchildren hheld).mpr h)

end

section Rebuild

variable {ε : Type} {event? : Element → Option ε} {p q : Element → Prop}

theorem around_iff {elements : List Element} : Around p event? elements ↔
    ∀ x ∈ elements, event? x = none →
      p x ∧ (∀ s ∈ x.children, Around p event? s) ∧ ∀ s ∈ x.held, Everywhere p s := by
  constructor
  · rintro ⟨hp, hs⟩ x hx hnone
    exact ⟨(hp x hx hnone).1, hs x hx hnone, (hp x hx hnone).2⟩
  · intro h
    exact .intro (fun x hx hnone => ⟨(h x hx hnone).1, (h x hx hnone).2.2⟩)
      fun x hx hnone => (h x hx hnone).2.1

theorem Everywhere.around {elements : List Element} (h : Everywhere p elements) :
    Around p event? elements := by
  induction h with
  | intro hp hinside ih =>
    refine .intro (fun x hx _ => ⟨hp x hx, fun s hs => ?_⟩) fun x hx _ s hs => ?_
    · exact hinside x hx s (List.mem_append_right _ hs)
    · exact ih x hx s (List.mem_append_left _ hs)

theorem around_nil : Around p event? [] :=
  around_iff.mpr fun _ hx => absurd hx List.not_mem_nil

theorem around_append {xs ys : List Element} :
    Around p event? (xs ++ ys) ↔ Around p event? xs ∧ Around p event? ys := by
  rw [around_iff, around_iff, around_iff, List.forall_mem_append]

theorem around_cons {x : Element} {xs : List Element} :
    Around p event? (x :: xs) ↔ Around p event? [x] ∧ Around p event? xs := by
  rw [← around_append, List.singleton_append]

theorem around_singleton {x : Element} : Around p event? [x] ↔ (event? x = none →
    p x ∧ (∀ s ∈ x.children, Around p event? s) ∧ ∀ s ∈ x.held, Everywhere p s) := by
  rw [around_iff, List.forall_mem_singleton]

theorem around_iff_forall_mem {elements : List Element} :
    Around p event? elements ↔ ∀ x ∈ elements, Around p event? [x] :=
  around_iff.trans (forall₂_congr fun _ _ => around_singleton.symm)

theorem around_of_event {x : Element} {event : ε} (h : event? x = some event) :
    Around p event? [x] :=
  around_singleton.mpr fun hnone => by rw [h] at hnone; cases hnone

theorem Around.mono {elements : List Element} (h : Around p event? elements)
    (hpq : ∀ x, p x → q x) : Around q event? elements := by
  induction h with
  | intro hp _ ih =>
    refine .intro (fun x hx hnone => ?_) ih
    obtain ⟨hpx, hheld⟩ := hp x hx hnone
    exact ⟨hpq x hpx, fun s hs => (hheld s hs).mono hpq⟩

section Merge

variable (htext : ∀ s, event? (.text s) = none)
include htext

theorem around_text {s : String} : Around p event? [.text s] ↔ p (.text s) := by
  simp [around_singleton, htext, Element.children, Element.held]

theorem around_text_cons {s : String} {rest : List Element} :
    Around p event? (.text s :: rest) ↔ p (.text s) ∧ Around p event? rest := by
  rw [around_cons, around_text htext]

variable (happend : ∀ s t, p (.text (s ++ t)) ↔ p (.text s) ∧ p (.text t)) (hempty : p (.text ""))
include happend hempty

theorem around_pushText (s : String) (elements : List Element) :
    Around p event? (pushText s elements) ↔ p (.text s) ∧ Around p event? elements := by
  unfold pushText
  split
  · rw [around_text_cons htext, around_text_cons htext, happend, and_assoc]
  · split
    · next h => rw [h, and_iff_right hempty]
    · rw [around_text_cons htext]

theorem around_merge (elements : List Element) :
    Around p event? (merge elements) ↔ Around p event? elements := by
  fun_induction merge elements with
  | case1 => rfl
  | case2 s rest ih =>
    rw [around_pushText htext happend hempty, ih, around_text_cons htext]
  | case3 x rest _ ih => rw [around_cons, ih, ← around_cons]

end Merge

theorem everywhere_iff_around {q : ε → Prop}
    (hq : ∀ x event, event? x = some event → (x.Throughout p ↔ q event))
    (elements : List Element) :
    Everywhere p elements ↔
      Around p event? elements ∧ ∀ event ∈ gather event? elements, q event := by
  induction elements using sequence_induction with
  | step elements ih =>
    rw [everywhere_iff, around_iff, gather_eq, List.forall_mem_flatMap, ← forall₂_and]
    refine forall₂_congr fun x hx => ?_
    rw [Element.gather]
    cases hevent : event? x with
    | some event => simp [hq x event hevent]
    | none =>
      have hchildren : (∀ s ∈ x.children, Everywhere p s) ↔
          (∀ s ∈ x.children, Around p event? s) ∧
            ∀ s ∈ x.children, ∀ event ∈ gather event? s, q event := by
        rw [← forall₂_and]
        exact forall₂_congr (ih x hx)
      rw [Element.Throughout, hchildren, List.forall_mem_flatMap, forall_prop_of_true rfl]
      constructor
      · rintro ⟨hx, ⟨haround, hq⟩, hheld⟩
        exact ⟨⟨hx, haround, hheld⟩, hq⟩
      · rintro ⟨⟨hx, haround, hheld⟩, hq⟩
        exact ⟨hx, ⟨haround, hq⟩, hheld⟩

theorem everywhere_iff_around_none {elements : List Element} :
    Everywhere p elements ↔ Around p (fun _ => (none : Option Unit)) elements := by
  refine (everywhere_iff_around (q := fun _ => True) (fun _ _ h => ?_) elements).trans
    (and_iff_left fun _ _ => trivial)
  cases h

theorem everywhere_merge
    (happend : ∀ s t, p (.text (s ++ t)) ↔ p (.text s) ∧ p (.text t)) (hempty : p (.text ""))
    (elements : List Element) : Everywhere p (merge elements) ↔ Everywhere p elements := by
  rw [everywhere_iff_around_none, everywhere_iff_around_none]
  exact around_merge (fun _ => rfl) happend hempty elements

theorem everywhere_path_below
    (happend : ∀ s t, p (.text (s ++ t)) ↔ p (.text s) ∧ p (.text t)) (hempty : p (.text ""))
    {directory : String} (hd : p (.text (Text.dropTrailing '/' directory ++ "/")))
    {location : Location Element} (h : Everywhere p location.path) :
    Everywhere p (Location.below directory location).path := by
  rcases Location.below_cases directory location with hsame | hmoved
  · rw [hsame]
    exact h
  · rw [hmoved, everywhere_merge happend hempty, everywhere_cons, throughout_text]
    exact ⟨hd, h⟩

variable {finish : List Element → List Element}

theorem Filled.everywhere_iff
    (hfinish : ∀ elements, Everywhere p (finish elements) ↔ Everywhere p elements)
    (hp : ∀ (x : Element) sequences, p (x.withChildren sequences) ↔ p x)
    {elements outcomes result : List Element} (h : Filled event? finish elements outcomes result) :
    Everywhere p result ↔ Around p event? elements ∧ ∀ o ∈ outcomes, o.Throughout p := by
  induction elements using sequence_induction generalizing outcomes result with
  | step elements ih =>
    obtain ⟨hparts⟩ := h
    rw [hfinish, Manuscript.everywhere_iff, around_iff]
    refine (hparts.imp fun x hx own y hy => ?_).forall_mem_iff
    cases hy with
    | event hevent => simp [hevent]
    | inside hnone hsequences =>
      have hiff := (hsequences.imp fun s hs _ _ ht => ih x hx s hs ht).forall_mem_iff
      rw [Element.Throughout, hp, Element.children_withChildren hsequences.length_eq,
        Element.held_withChildren, hiff, forall_prop_of_true hnone]
      constructor
      · rintro ⟨hx, ⟨haround, hall⟩, hheld⟩
        exact ⟨⟨hx, haround, hheld⟩, hall⟩
      · rintro ⟨⟨hx, haround, hheld⟩, hall⟩
        exact ⟨hx, ⟨haround, hall⟩, hheld⟩

theorem Filled.around {σ : Type} {sheltered? : Element → Option σ}
    (hfinish : ∀ elements, Around p sheltered? elements → Around p sheltered? (finish elements))
    (hp : ∀ x sequences, p x → p (x.withChildren sequences))
    (hkeep : ∀ x sequences, sheltered? (x.withChildren sequences) = none → sheltered? x = none)
    {elements outcomes result : List Element} (h : Filled event? finish elements outcomes result)
    (houtcomes : ∀ o ∈ outcomes, Around p sheltered? [o])
    (helements : Around p sheltered? elements) : Around p sheltered? result := by
  induction elements using sequence_induction generalizing outcomes result with
  | step elements ih =>
    obtain ⟨hparts⟩ := h
    refine hfinish _ (around_iff_forall_mem.mpr ?_)
    refine (hparts.imp fun x hx own y hy hown => ?_).forall_mem houtcomes
    cases hy with
    | event hevent => exact hown y List.mem_cons_self
    | @inside _ _ sequences hnone hsequences =>
      refine around_singleton.mpr fun hopen => ?_
      obtain ⟨hpx, hchildren, hheld⟩ := around_iff.mp helements x hx (hkeep x sequences hopen)
      rw [Element.children_withChildren hsequences.length_eq, Element.held_withChildren]
      refine ⟨hp x sequences hpx, ?_, hheld⟩
      exact (hsequences.imp fun s hs _ _ ht hall => ih x hx s hs ht hall (hchildren s hs)).forall_mem
        hown

end Rebuild

end Manuscript
