import Manuscript.Proofs.Dispatch
import Manuscript.Proofs.Skeleton

namespace Manuscript

open Footnotes

theorem rel_imp {α β : Type} {R S : α → β → Prop} {a : Option α} {b : Option β}
    (h : Option.Rel R a b) (hRS : ∀ x y, R x y → S x y) : Option.Rel S a b := by
  cases h with
  | none => exact .none
  | some h => exact .some (hRS _ _ h)

theorem rel_comp {α β γ : Type} {R : α → β → Prop} {S : β → γ → Prop} {a : Option α} {b : Option β}
    {c : Option γ} (hR : Option.Rel R a b) (hS : Option.Rel S b c) :
    Option.Rel (Relation.Comp R S) a c := by
  cases hR with
  | none =>
    cases hS
    exact .none
  | some hx =>
    cases hS with
    | some hy => exact .some ⟨_, hx, hy⟩

theorem exists_right_of_rel {α β : Type} {R : α → β → Prop} {x : α} {b : Option β}
    (h : Option.Rel R (some x) b) : ∃ y, b = some y ∧ R x y := by
  cases h with
  | some h => exact ⟨_, rfl, h⟩

theorem exists_left_of_rel {α β : Type} {R : α → β → Prop} {a : Option α} {y : β}
    (h : Option.Rel R a (some y)) : ∃ x, a = some x ∧ R x y := by
  cases h with
  | some h => exact ⟨_, rfl, h⟩

namespace Element

def inner : Element → List Element
  | .sectionBlock _ _ _ elements => elements
  | .elementBlock _ _ elements => elements
  | .listItem _ _ elements => elements
  | .labeledItem _ _ _ elements => elements
  | .continued _ element => [element]
  | _ => []

theorem Leaf.inner_eq_nil {x : Element} (h : x.Leaf) : x.inner = [] := by
  cases x <;> first | rfl | exact h.elim

theorem Leaf.withChildren {x : Element} (h : x.Leaf) (sequences : List Line) :
    (x.withChildren sequences).Leaf := by
  fun_induction Element.withChildren x sequences <;> trivial

end Element

def blockAt (elements : List Element) : List Nat → Option Element
  | [] => none
  | i :: path => elements[i]?.bind fun x => if path = [] then some x else blockAt x.inner path

theorem blockAt_append (before : List Element) (x : Element) (after : List Element)
    (path : List Nat) : blockAt (before ++ x :: after) (before.length :: path) =
      if path = [] then some x else blockAt x.inner path := by
  rw [blockAt, List.getElem?_append_right (Nat.le_refl _), Nat.sub_self]
  rfl

theorem blockAt_of_length_le {elements : List Element} {i : Nat} (h : elements.length ≤ i)
    (path : List Nat) : blockAt elements (i :: path) = none := by
  rw [blockAt, List.getElem?_eq_none h]
  rfl

theorem blockAt_rel {R : Element → Element → Prop}
    (hinner : ∀ x y, R x y → List.Forall₂ R x.inner y.inner) {xs ys : List Element}
    (h : List.Forall₂ R xs ys) (path : List Nat) :
    Option.Rel R (blockAt xs path) (blockAt ys path) := by
  induction path generalizing xs ys with
  | nil => exact .none
  | cons i path ih =>
    induction h generalizing i with
    | nil => exact .none
    | @cons x y xs ys hxy _ ihrest =>
      cases i with
      | zero =>
        by_cases hpath : path = []
        · simpa [blockAt, hpath] using Option.Rel.some hxy
        · simpa [blockAt, hpath] using ih (hinner x y hxy)
      | succ i => exact ihrest i

namespace Pass

inductive Comes (setting : Setting) :
    Handed → PassState → List Element → List Nat → Handed → PassState → Prop
  | here {handed : Handed} {s t : PassState} {before after results : List Element} {x : Element} :
      runFrom s (through setting handed before) = (.ok results, t) →
      Comes setting handed s (before ++ x :: after) [before.length] handed t
  | inside {handed next last : Handed} {s s' t u : PassState} {before after results : List Element}
      {x : Element} {path : List Nat} :
      runFrom s (through setting handed before) = (.ok results, s') →
      runFrom s' (enter setting handed x) = (.ok next, t) →
      Comes setting next t x.inner path last u →
      Comes setting handed s (before ++ x :: after) (before.length :: path) last u

inductive Treated (setting : Setting) (handed : Handed) (s s' : PassState) :
    Element → Element → Prop
  | paragraph {attributes : Attributes} {steps : List Step} {lines after : List Line} :
      runFrom s (applyLines setting steps "paragraph" lines) = (.ok after, s') →
      Treated setting handed s s' (.paragraph attributes lines) (.paragraph attributes after)
  | ownLines {kind : BlockKind} {attributes attributes' : Attributes} {steps : List Step}
      {lines lines' after : List Line} {t : PassState} :
      handed = none → Directive.forBlock kind attributes = .ok steps →
      runFrom s (moveAttribution setting kind attributes lines) = (.ok (attributes', lines'), t) →
      runFrom t (applyLines setting steps kind.name lines') = (.ok after, s') →
      Treated setting handed s s' (.lineBlock kind attributes lines)
        (.lineBlock kind attributes' after)
  | handedLines {kind : BlockKind} {attributes : Attributes} {steps : List Step}
      {lines after : List Line} :
      handed = some steps →
      runFrom s (applyLines setting steps kind.name lines) = (.ok after, s') →
      Treated setting handed s s' (.lineBlock kind attributes lines) (.lineBlock kind attributes after)
  | elementBlock {kind : BlockKind} {attributes : Attributes} {elements results : List Element}
      {next : Handed} {t : PassState} :
      runFrom s (enter setting handed (.elementBlock kind attributes elements)) = (.ok next, t) →
      runFrom t (through setting next elements) = (.ok results, s') →
      Treated setting handed s s' (.elementBlock kind attributes elements)
        (.elementBlock kind attributes results)
  | sectionBlock {level : UInt8} {attributes attributes' : Attributes} {title title' : Line}
      {elements results : List Element} {t : PassState} :
      runFrom s (applyTitle setting (handed.getD normalSteps) attributes title) =
        (.ok (attributes', title'), t) →
      runFrom t (through setting handed elements) = (.ok results, s') →
      Treated setting handed s s' (.sectionBlock level attributes title elements)
        (.sectionBlock level attributes' title' results)
  | listItem {marker : Marker} {attributes : Attributes} {elements results : List Element} :
      runFrom s (through setting handed elements) = (.ok results, s') →
      Treated setting handed s s' (.listItem marker attributes elements)
        (.listItem marker attributes results)
  | labeledItem {level : UInt8} {term term' : Line} {attributes : Attributes}
      {elements results : List Element} {t : PassState} :
      runFrom s (applyInline setting (handed.getD normalSteps) "labeled list term" term) =
        (.ok term', t) →
      runFrom t (through setting handed elements) = (.ok results, s') →
      Treated setting handed s s' (.labeledItem level term attributes elements)
        (.labeledItem level term' attributes results)
  | continued {offset : Int32} {x y : Element} :
      runFrom s (treat setting handed x) = (.ok y, s') →
      Treated setting handed s s' (.continued offset x) (.continued offset y)
  | leaf {x y : Element} : x.Leaf → y.Leaf → runFrom s (applyLeaf setting x) = (.ok y, s') →
      Treated setting handed s s' x y

section Treat

variable {setting : Setting} {handed : Handed} {s s' : PassState} {x y : Element}
  {xs ys before after : List Element}

theorem returns_resolveElement_of_leaf (h : x.Leaf) : Returns (resolveElement x) Element.Leaf := by
  rw [resolveElement, resolving?]
  cases hevent : Event.ofElement? x with
  | none =>
    rw [Option.map_none]
    dsimp only
    rw [Element.mapChildrenM, map_eq_pure_bind]
    exact (Returns.any _).bind fun sequences _ => .pure (h.withChildren sequences)
  | some event =>
    rw [Option.map_some]
    intro r r' y hrun
    obtain ⟨turn, hturn, rfl, -⟩ := runFrom_run_eq_ok_iff.mp hrun
    obtain ⟨text, htext⟩ | hsame := element_of_turn hturn
    · rw [htext]
      trivial
    · rwa [hsame, ← eq_element_of_ofElement? hevent]

theorem returns_applyLeaf_of_leaf (h : x.Leaf) : Returns (applyLeaf setting x) Element.Leaf := by
  have hresolving : Returns (resolving (resolveElement x)) Element.Leaf := by
    intro s s' y hrun
    rw [runFrom_resolving] at hrun
    exact returns_resolveElement_of_leaf h _ _ _ (Prod.ext (Prod.mk.inj hrun).1 rfl)
  cases x
  case imageBlock location attributes =>
    rw [applyLeaf, applyImage]
    refine (Returns.any _).bind fun _ _ => (Returns.any _).bind fun _ _ => ?_
    dsimp only
    split <;> exact .pure trivial
  all_goals exact hresolving

theorem treated_of_treat (h : runFrom s (treat setting handed x) = (.ok y, s')) :
    Treated setting handed s s' x y := by
  by_cases hleaf : x.Leaf
  · rw [treat_of_leaf hleaf] at h
    exact .leaf hleaf (returns_applyLeaf_of_leaf hleaf _ _ _ h) h
  cases x
  case paragraph attributes lines =>
    cases handed with
    | none =>
      rw [treat, applyElement] at h
      obtain ⟨steps, s₁, hsteps, h⟩ := runFrom_bind_eq_ok.mp h
      obtain ⟨after, s₂, hlines, h⟩ := runFrom_bind_eq_ok.mp h
      obtain ⟨-, hs⟩ := Prod.mk.inj hsteps
      cases h
      exact .paragraph (hs ▸ hlines)
    | some steps =>
      rw [treat, applyChild] at h
      obtain ⟨after, s₁, hlines, h⟩ := runFrom_bind_eq_ok.mp h
      cases h
      exact .paragraph hlines
  case lineBlock kind attributes lines =>
    cases handed with
    | none =>
      rw [treat, applyElement] at h
      obtain ⟨steps, s₁, hsteps, h⟩ := runFrom_bind_eq_ok.mp h
      obtain ⟨⟨attributes', lines'⟩, s₂, hmoved, h⟩ := runFrom_bind_eq_ok.mp h
      obtain ⟨after, s₃, hlines, h⟩ := runFrom_bind_eq_ok.mp h
      obtain ⟨hsteps, hs⟩ := Prod.mk.inj hsteps
      cases h
      exact .ownLines rfl hsteps (hs ▸ hmoved) hlines
    | some steps =>
      rw [treat, applyChild] at h
      obtain ⟨after, s₁, hlines, h⟩ := runFrom_bind_eq_ok.mp h
      cases h
      exact .handedLines rfl hlines
  case elementBlock kind attributes elements =>
    rw [treat_elementBlock] at h
    obtain ⟨next, s₁, hnext, h⟩ := runFrom_bind_eq_ok.mp h
    obtain ⟨results, s₂, hresults, h⟩ := runFrom_bind_eq_ok.mp h
    cases h
    exact .elementBlock hnext hresults
  case sectionBlock level attributes title elements =>
    rw [treat_sectionBlock] at h
    obtain ⟨⟨attributes', title'⟩, s₁, htitle, h⟩ := runFrom_bind_eq_ok.mp h
    obtain ⟨results, s₂, hresults, h⟩ := runFrom_bind_eq_ok.mp h
    cases h
    exact .sectionBlock htitle hresults
  case listItem marker attributes elements =>
    rw [treat_listItem] at h
    obtain ⟨results, s₁, hresults, h⟩ := runFrom_bind_eq_ok.mp h
    cases h
    exact .listItem hresults
  case labeledItem level term attributes elements =>
    rw [treat_labeledItem] at h
    obtain ⟨term', s₁, hterm, h⟩ := runFrom_bind_eq_ok.mp h
    obtain ⟨results, s₂, hresults, h⟩ := runFrom_bind_eq_ok.mp h
    cases h
    exact .labeledItem hterm hresults
  case continued offset x =>
    rw [treat_continued] at h
    obtain ⟨y, s₁, hy, h⟩ := runFrom_bind_eq_ok.mp h
    cases h
    exact .continued hy
  all_goals exact absurd trivial hleaf

theorem length_of_through (h : runFrom s (through setting handed xs) = (.ok ys, s')) :
    ys.length = xs.length := by
  induction xs generalizing s ys with
  | nil =>
    rw [through_nil] at h
    cases h
    rfl
  | cons x xs ih =>
    rw [through_cons] at h
    obtain ⟨y, s₁, -, h⟩ := runFrom_bind_eq_ok.mp h
    obtain ⟨rest, s₂, hrest, h⟩ := runFrom_bind_eq_ok.mp h
    cases h
    exact congrArg (· + 1) (ih hrest)

theorem exists_of_through
    (h : runFrom s (through setting handed (before ++ x :: after)) = (.ok ys, s')) :
    ∃ results y rest t t', runFrom s (through setting handed before) = (.ok results, t) ∧
      runFrom t (treat setting handed x) = (.ok y, t') ∧ ys = results ++ y :: rest := by
  induction before generalizing s ys with
  | nil =>
    rw [List.nil_append, through_cons] at h
    obtain ⟨y, s₁, hy, h⟩ := runFrom_bind_eq_ok.mp h
    obtain ⟨rest, s₂, -, h⟩ := runFrom_bind_eq_ok.mp h
    cases h
    exact ⟨[], y, rest, s, s₁, by rw [through_nil]; rfl, hy, rfl⟩
  | cons first before ih =>
    rw [List.cons_append, through_cons] at h
    obtain ⟨z, s₁, hz, h⟩ := runFrom_bind_eq_ok.mp h
    obtain ⟨others, s₂, hothers, h⟩ := runFrom_bind_eq_ok.mp h
    cases h
    obtain ⟨results, y, rest, t, t', hresults, hy, rfl⟩ := ih hothers
    refine ⟨z :: results, y, rest, t, t', ?_, hy, rfl⟩
    rw [through_cons, runFrom_bind_ok hz, runFrom_bind_ok hresults]
    rfl

theorem Treated.inside (h : Treated setting handed s s' x y) :
    ∃ next t t', runFrom s (enter setting handed x) = (.ok next, t) ∧
      runFrom t (through setting next x.inner) = (.ok y.inner, t') := by
  have hnone {t : PassState} : runFrom t (through setting handed []) = (.ok [], t) := by
    rw [through_nil]
    rfl
  cases h with
  | paragraph => exact ⟨handed, s, s, rfl, hnone⟩
  | ownLines => exact ⟨handed, s, s, rfl, hnone⟩
  | handedLines => exact ⟨handed, s, s, rfl, hnone⟩
  | elementBlock hnext hresults => exact ⟨_, _, _, hnext, hresults⟩
  | sectionBlock htitle hresults => exact ⟨handed, _, _, runFrom_bind_ok htitle _, hresults⟩
  | listItem hresults => exact ⟨handed, s, _, rfl, hresults⟩
  | labeledItem hterm hresults => exact ⟨handed, _, _, runFrom_bind_ok hterm _, hresults⟩
  | continued hy =>
    refine ⟨handed, s, s', rfl, ?_⟩
    rw [Element.inner, through_cons, runFrom_bind_ok hy, runFrom_bind_ok hnone]
    rfl
  | leaf hx hy =>
    rw [hx.inner_eq_nil, hy.inner_eq_nil]
    refine ⟨handed, s, s, ?_, hnone⟩
    cases x <;> first | rfl | exact hx.elim

theorem Comes.path_ne_nil {path : List Nat} {last : Handed}
    (h : Comes setting handed s xs path last s') : path ≠ [] := by
  cases h <;> exact List.cons_ne_nil _ _

theorem Comes.unique {path : List Nat} {last last' : Handed} {t t' : PassState}
    (h : Comes setting handed s xs path last t) (h' : Comes setting handed s xs path last' t') :
    last' = last ∧ t' = t := by
  induction h generalizing last' t' with
  | @here _ _ _ before after _ x hbefore =>
    generalize hxs : before ++ x :: after = xs, hpath : [before.length] = path at h'
    cases h' with
    | here hbefore' =>
      obtain ⟨hlength, -⟩ := List.cons.inj hpath
      obtain ⟨rfl, -⟩ := List.append_inj hxs hlength
      cases hbefore.symm.trans hbefore'
      exact ⟨rfl, rfl⟩
    | inside _ _ hcomes => exact absurd (List.cons.inj hpath).2.symm hcomes.path_ne_nil
  | @inside _ _ _ _ _ _ _ before after _ x path hbefore henter hcomes ih =>
    generalize hxs : before ++ x :: after = xs, hpath : before.length :: path = path' at h'
    cases h' with
    | here => exact absurd (List.cons.inj hpath).2 hcomes.path_ne_nil
    | inside hbefore' henter' hcomes' =>
      obtain ⟨hlength, rfl⟩ := List.cons.inj hpath
      obtain ⟨rfl, hrest⟩ := List.append_inj hxs hlength
      obtain ⟨rfl, -⟩ := List.cons.inj hrest
      cases hbefore.symm.trans hbefore'
      cases henter.symm.trans henter'
      exact ih hcomes'

def Becomes (setting : Setting) (handed : Handed) (s : PassState) (elements : List Element)
    (path : List Nat) (x y : Element) : Prop :=
  ∃ last t t', Comes setting handed s elements path last t ∧
    runFrom t (treat setting last x) = (.ok y, t')

theorem becomes_of_through (h : runFrom s (through setting handed xs) = (.ok ys, s'))
    (path : List Nat) :
    Option.Rel (Becomes setting handed s xs path) (blockAt xs path) (blockAt ys path) := by
  induction path generalizing handed s s' xs ys with
  | nil => exact .none
  | cons i path ih =>
    obtain hi | hi := Nat.lt_or_ge i xs.length
    · obtain ⟨before, x, after, rfl, rfl⟩ : ∃ before x after, xs = before ++ x :: after ∧
          before.length = i :=
        ⟨xs.take i, xs[i], xs.drop (i + 1), by rw [List.getElem_cons_drop, List.take_append_drop],
          List.length_take_of_le (Nat.le_of_lt hi)⟩
      obtain ⟨results, y, rest, t, t', hbefore, hy, rfl⟩ := exists_of_through h
      rw [blockAt_append, ← length_of_through hbefore, blockAt_append, length_of_through hbefore]
      split
      · next hpath =>
        subst hpath
        exact .some ⟨handed, t, t', .here hbefore, hy⟩
      · obtain ⟨next, u, u', henter, hinner⟩ := (treated_of_treat hy).inside
        refine rel_imp (ih hinner) fun z w ⟨last, v, v', hcomes, hw⟩ => ?_
        exact ⟨last, v, v', .inside hbefore henter hcomes, hw⟩
    · rw [blockAt_of_length_le hi, blockAt_of_length_le (length_of_through h ▸ hi)]
      exact .none

end Treat

end Pass

def Referenced (xs ys : List Element) : Prop :=
  ∃ outcomes, (∀ o ∈ outcomes, ∃ id reference duplicate, o = .footnoteReference id reference duplicate) ∧
    Filled note? id xs outcomes ys

theorem referenced_replace (elements : List Element) (f : Footnotes) :
    Referenced elements ((replace elements).run f).1 := by
  obtain ⟨hlength, hreferred, -⟩ :=
    of_run_mapM_collect (Prod.eta (((gather note? elements).mapM collect).run f)).symm
  rw [replace_eq, StateT.run_map]
  exact ⟨_, hreferred, filled_run_rebuild hlength⟩

inductive Noted (x : Element) : Element → Prop
  | reference {id : Int32} {name : Option String} {duplicate : Bool} : note? x ≠ none →
      Noted x (.footnoteReference id name duplicate)
  | around {sequences : List Line} : List.Forall₂ Referenced x.children sequences →
      Noted x (x.withChildren sequences)

theorem Referenced.noted {xs ys : List Element} (h : Referenced xs ys) : List.Forall₂ Noted xs ys := by
  obtain ⟨outcomes, hreferred, ⟨hparts⟩⟩ := h
  refine (hparts.imp fun x _ own y hfilled hown => ?_).forall₂ hreferred
  cases hfilled with
  | event hevent =>
    obtain ⟨_, _, _, rfl⟩ := hown _ List.mem_cons_self
    exact .reference fun hnone => by cases hnone.symm.trans hevent
  | inside _ hsequences =>
    exact .around ((hsequences.imp fun _ _ own _ h ho => ⟨own, ho, h⟩).forall₂ hown)

theorem Noted.inside {x y : Element} (h : Noted x y) : List.Forall₂ Noted x.inner y.inner := by
  cases h with
  | reference hnote =>
    cases x
    case footnote => exact .nil
    all_goals exact absurd rfl hnote
  | around hsequences =>
    by_cases hleaf : x.Leaf
    · rw [hleaf.inner_eq_nil, (hleaf.withChildren _).inner_eq_nil]
      exact .nil
    cases x
    case paragraph => exact .nil
    case lineBlock => exact .nil
    case elementBlock =>
      obtain _ | ⟨helements, _ | _⟩ := hsequences
      exact helements.noted
    case sectionBlock =>
      obtain _ | ⟨-, _ | ⟨helements, _ | _⟩⟩ := hsequences
      exact helements.noted
    case listItem =>
      obtain _ | ⟨helements, _ | _⟩ := hsequences
      exact helements.noted
    case labeledItem =>
      obtain _ | ⟨-, _ | ⟨helements, _ | _⟩⟩ := hsequences
      exact helements.noted
    case continued => exact .cons (.around hsequences) .nil
    all_goals exact absurd trivial hleaf

def Credited (x y : Element) : Prop := y = x ∨ y = withoutCredits x

theorem Credited.inside {x y : Element} (h : Credited x y) : List.Forall₂ Credited x.inner y.inner := by
  have hinner : y.inner = x.inner := by
    obtain rfl | rfl := h
    · rfl
    · cases x <;> rfl
  rw [hinner]
  exact List.forall₂_same.mpr fun _ _ => .inl rfl

theorem credited_afterHeader (elements : List Element) :
    List.Forall₂ Credited elements (afterHeader elements) := by
  rw [afterHeader]
  conv => arg 2; rw [← List.takeWhile_append_dropWhile (p := inHeader) (l := elements)]
  refine List.rel_append ?_ (List.forall₂_same.mpr fun _ _ => .inl rfl)
  exact List.forall₂_map_right_iff.mpr (List.forall₂_same.mpr fun _ _ => .inr rfl)

theorem blockAt_draft {grammar : Grammar} {document : Document} {configuration : Configuration}
    {draft : Draft} (h : substitute grammar document configuration = .ok draft) :
    ∃ store, Pass.prepare document configuration = .ok (store, afterHeader document.elements) ∧
      ∀ path, Option.Rel
        (Relation.Comp Credited (Relation.Comp (Pass.Becomes ⟨grammar, false⟩ none ⟨⟨store, []⟩, []⟩
          (afterHeader document.elements) path) Noted))
        (blockAt document.elements path) (blockAt draft.elements path) := by
  obtain ⟨records, hrun⟩ :
      ∃ records, Pass.run ⟨grammar, false⟩ document configuration = .ok (draft, records) := by
    rw [substitute] at h
    cases hrun : Pass.run ⟨grammar, false⟩ document configuration with
    | error fault => rw [hrun] at h; cases h
    | ok result =>
      rw [hrun] at h
      cases h
      exact ⟨result.2, rfl⟩
  obtain ⟨store, elements, substituted, state, hprepare, happly, final, footnotes, hreplace, rfl, -⟩ :=
    Pass.run_cases hrun
  obtain ⟨-, rfl⟩ := Pass.prepare_cases hprepare
  rw [collect_snd] at hprepare happly
  have hreferenced := referenced_replace substituted ⟨[], state.resolution.warnings⟩
  rw [hreplace] at hreferenced
  have hcredited := blockAt_rel (fun _ _ => Credited.inside) (credited_afterHeader document.elements)
  have hnoted := blockAt_rel (fun _ _ => Noted.inside) hreferenced.noted
  exact ⟨store, hprepare, fun path =>
    rel_comp (hcredited path) (rel_comp (Pass.becomes_of_through happly path) (hnoted path))⟩

end Manuscript
