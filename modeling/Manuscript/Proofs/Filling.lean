import Manuscript.Proofs.Walk
import Mathlib.Data.List.Forall2

namespace Manuscript

inductive Portions {α β : Type} (Q : α → List Element → β → Prop) :
    List α → List Element → List β → Prop
  | nil : Portions Q [] [] []
  | cons {a : α} {b : β} {own outcomes : List Element} {as : List α} {bs : List β} :
      Q a own b → Portions Q as outcomes bs → Portions Q (a :: as) (own ++ outcomes) (b :: bs)

namespace Portions

variable {α β : Type} {as : List α} {bs : List β} {outcomes : List Element}
  {P Q : α → List Element → β → Prop}

theorem length_eq (h : Portions Q as outcomes bs) : bs.length = as.length := by
  induction h with
  | nil => rfl
  | cons _ _ ih => exact congrArg (· + 1) ih

theorem imp (h : Portions P as outcomes bs)
    (hPQ : ∀ a ∈ as, ∀ own b, P a own b → Q a own b) : Portions Q as outcomes bs := by
  induction h with
  | nil => exact .nil
  | cons hfirst _ ih =>
    obtain ⟨hhead, htail⟩ := List.forall_mem_cons.mp hPQ
    exact .cons (hhead _ _ hfirst) (ih htail)

theorem forall_mem {R : β → Prop} {T : Element → Prop}
    (h : Portions (fun _ own b => (∀ o ∈ own, T o) → R b) as outcomes bs)
    (houtcomes : ∀ o ∈ outcomes, T o) : ∀ b ∈ bs, R b := by
  induction h with
  | nil => exact fun _ hb => absurd hb List.not_mem_nil
  | cons hfirst _ ih =>
    obtain ⟨hown, hothers⟩ := List.forall_mem_append.mp houtcomes
    exact List.forall_mem_cons.mpr ⟨hfirst hown, ih hothers⟩

theorem forall₂ {R : α → β → Prop} {T : Element → Prop}
    (h : Portions (fun a own b => (∀ o ∈ own, T o) → R a b) as outcomes bs)
    (houtcomes : ∀ o ∈ outcomes, T o) : List.Forall₂ R as bs := by
  induction h with
  | nil => exact .nil
  | cons hfirst _ ih =>
    obtain ⟨hown, hothers⟩ := List.forall_mem_append.mp houtcomes
    exact .cons (hfirst hown) (ih hothers)

theorem forall_mem_iff {R : β → Prop} {S : α → Prop} {T : Element → Prop}
    (h : Portions (fun a own b => R b ↔ S a ∧ ∀ o ∈ own, T o) as outcomes bs) :
    (∀ b ∈ bs, R b) ↔ (∀ a ∈ as, S a) ∧ ∀ o ∈ outcomes, T o := by
  induction h with
  | nil => simp
  | cons hfirst _ ih =>
    rw [List.forall_mem_cons, List.forall_mem_cons, List.forall_mem_append, hfirst, ih]
    exact and_and_and_comm

end Portions

section Supplies

variable {ε : Type}

def Supplies (events : List ε) {α : Type} (c : Supply α) (Q : List Element → α → Prop) : Prop :=
  ∀ outcomes rest, outcomes.length = events.length →
    ∃ a, c.run (outcomes ++ rest) = (a, rest) ∧ Q outcomes a

namespace Supplies

theorem next (event : ε) : Supplies [event] takeNext fun outcomes x => outcomes = [x] := by
  intro outcomes rest hlen
  obtain ⟨x, rfl⟩ := List.length_eq_one_iff.mp hlen
  exact ⟨x, rfl, rfl⟩

theorem map {α β : Type} {events : List ε} {c : Supply α} {f : α → β}
    {Q : List Element → β → Prop} (h : Supplies events c fun outcomes a => Q outcomes (f a)) :
    Supplies events (f <$> c) Q := by
  intro outcomes rest hlen
  obtain ⟨a, hrun, hq⟩ := h outcomes rest hlen
  refine ⟨f a, ?_, hq⟩
  rw [StateT.run_map, hrun]
  rfl

theorem mono {α : Type} {events : List ε} {c : Supply α} {P Q : List Element → α → Prop}
    (h : Supplies events c P) (hPQ : ∀ outcomes a, P outcomes a → Q outcomes a) :
    Supplies events c Q := by
  intro outcomes rest hlen
  obtain ⟨a, hrun, hp⟩ := h outcomes rest hlen
  exact ⟨a, hrun, hPQ outcomes a hp⟩

theorem mapM {α β : Type} {l : List α} {events : α → List ε} {f : α → Supply β}
    {Q : α → List Element → β → Prop} (h : ∀ a ∈ l, Supplies (events a) (f a) (Q a)) :
    Supplies (l.flatMap events) (l.mapM f) (Portions Q l) := by
  induction l with
  | nil =>
    intro outcomes rest hlen
    obtain rfl := List.length_eq_zero_iff.mp hlen
    exact ⟨[], rfl, .nil⟩
  | cons a l ih =>
    intro outcomes rest hlen
    obtain ⟨ha, hl⟩ := List.forall_mem_cons.mp h
    rw [List.flatMap_cons, List.length_append] at hlen
    obtain ⟨first, others, rfl, hfirst, hothers⟩ :
        ∃ first others, outcomes = first ++ others ∧ first.length = (events a).length ∧
          others.length = (l.flatMap events).length :=
      ⟨outcomes.take (events a).length, outcomes.drop (events a).length,
        (List.take_append_drop ..).symm, by rw [List.length_take]; omega,
        by rw [List.length_drop]; omega⟩
    obtain ⟨b, hb, hQ⟩ := ha first (others ++ rest) hfirst
    obtain ⟨bs, hbs, hQs⟩ := ih hl others rest hothers
    refine ⟨b :: bs, ?_, .cons hQ hQs⟩
    rw [List.mapM_cons, List.append_assoc, StateT.run_bind, hb]
    change ((l.mapM f >>= fun bs => pure (b :: bs)) : Supply (List β)).run (others ++ rest) = _
    rw [StateT.run_bind, hbs]
    rfl

end Supplies

end Supplies

section Filled

variable {ε : Type} (event? : Element → Option ε) (finish : List Element → List Element)

mutual

inductive Element.Filled : Element → List Element → Element → Prop
  | event {x outcome : Element} {event : ε} : event? x = some event →
      Element.Filled x [outcome] outcome
  | inside {x : Element} {outcomes : List Element} {sequences : List (List Element)} :
      event? x = none → Portions Filled x.children outcomes sequences →
      Element.Filled x outcomes (x.withChildren sequences)

inductive Filled : List Element → List Element → List Element → Prop
  | intro {elements outcomes results : List Element} :
      Portions Element.Filled elements outcomes results → Filled elements outcomes (finish results)

end

def Element.rebuild (x : Element) : Supply Element :=
  if (event? x).isSome then takeNext else x.mapChildrenM (Manuscript.rebuild event? finish)

theorem rebuild_eq (elements : List Element) :
    rebuild event? finish elements =
      finish <$> elements.mapM (Element.rebuild event? finish) := by
  rw [rebuild, walkM_eq]
  congr 2
  funext x
  rw [Element.rebuild]
  cases event? x <;> rfl

theorem filled_rebuild (elements : List Element) :
    Supplies (gather event? elements) (rebuild event? finish elements)
      (Filled event? finish elements) := by
  induction elements using sequence_induction with
  | step elements ih =>
    rw [gather_eq, rebuild_eq]
    have hparts : ∀ x ∈ elements, Supplies (x.gather event?) (x.rebuild event? finish)
        (x.Filled event? finish) := by
      intro x hx
      rw [Element.gather, Element.rebuild]
      cases hevent : event? x with
      | some event =>
        refine (Supplies.next event).mono fun outcomes outcome h => ?_
        exact h ▸ .event hevent
      | none => exact .map ((Supplies.mapM (ih x hx)).mono fun _ _ => .inside hevent)
    exact .map ((Supplies.mapM hparts).mono fun _ _ => .intro)

variable {event? finish}

theorem filled_run_rebuild {elements outcomes : List Element}
    (h : outcomes.length = (gather event? elements).length) :
    Filled event? finish elements outcomes ((rebuild event? finish elements).run outcomes).1 := by
  obtain ⟨result, hrun, hfilled⟩ := filled_rebuild event? finish elements outcomes [] h
  rw [List.append_nil] at hrun
  rw [hrun]
  exact hfilled

theorem Filled.gather_eq_nil (hkeep : ∀ x sequences, event? x = none →
      event? (x.withChildren sequences) = none)
    (hfinish : ∀ elements, gather event? elements = [] → gather event? (finish elements) = [])
    {elements outcomes result : List Element} (h : Filled event? finish elements outcomes result)
    (houtcomes : ∀ o ∈ outcomes, o.gather event? = []) : gather event? result = [] := by
  induction elements using sequence_induction generalizing outcomes result with
  | step elements ih =>
    obtain ⟨hparts⟩ := h
    refine hfinish _ ?_
    rw [gather_eq, List.flatMap_eq_nil_iff]
    refine (hparts.imp fun x hx own y hy hown => ?_).forall_mem houtcomes
    cases hy with
    | event hevent => exact hown y List.mem_cons_self
    | @inside _ _ sequences hnone hsequences =>
      have hall := (hsequences.imp fun s hs _ _ ht => ih x hx s hs ht).forall_mem hown
      rw [Element.gather, hkeep x sequences hnone,
        Element.children_withChildren hsequences.length_eq]
      exact List.flatMap_eq_nil_iff.mpr hall

end Filled

end Manuscript
