import Manuscript.Proofs.Dispatch
import Manuscript.Proofs.Resolution.Replay
import Manuscript.Proofs.Variation

namespace Manuscript

section Meet

variable {σ α β γ δ : Type}

inductive Meet (R F : σ → σ → Prop) (Q : α → β → Prop) :
    Except Fault α × σ → Except Fault β × σ → Prop
  | ok {a : α} {b : β} {s s' : σ} : Q a b → R s s' → Meet R F Q (.ok a, s) (.ok b, s')
  | error {fault : Fault} {s s' : σ} : F s s' → Meet R F Q (.error fault, s) (.error fault, s')

structure Couples (R F : σ → σ → Prop) (Q : α → β → Prop) (x : Stateful σ α) (y : Stateful σ β) :
    Prop where
  meet (s s' : σ) : R s s' → Meet R F Q (runFrom s x) (runFrom s' y)

namespace Couples

variable {R F : σ → σ → Prop} {Q : α → β → Prop} {P : γ → δ → Prop} {x : Stateful σ α}
  {y : Stateful σ β}

theorem pure {a : α} {b : β} (h : Q a b) :
    Couples R F Q (Pure.pure a : Stateful σ α) (Pure.pure b : Stateful σ β) where
  meet _ _ hs := .ok h hs

theorem bind {f : α → Stateful σ γ} {g : β → Stateful σ δ} (h : Couples R F Q x y)
    (hnext : ∀ a b, Q a b → Couples R F P (f a) (g b)) :
    Couples R F P (x >>= f) (y >>= g) := by
  refine ⟨fun s s' hs => ?_⟩
  have hmeet := h.meet s s' hs
  rw [runFrom_bind, runFrom_bind]
  generalize runFrom s x = first at hmeet
  generalize runFrom s' y = second at hmeet
  cases hmeet with
  | ok hq hr => exact (hnext _ _ hq).meet _ _ hr
  | error hf => exact .error hf

theorem imp {Q' : α → β → Prop} (h : Couples R F Q x y) (hQ : ∀ a b, Q a b → Q' a b) :
    Couples R F Q' x y := by
  refine ⟨fun s s' hs => ?_⟩
  have hmeet := h.meet s s' hs
  generalize runFrom s x = first at hmeet
  generalize runFrom s' y = second at hmeet
  cases hmeet with
  | ok hq hr => exact .ok (hQ _ _ hq) hr
  | error hf => exact .error hf

theorem bind_eq {x y : Stateful σ α} {f g : α → Stateful σ γ} {P : γ → γ → Prop}
    (h : Couples R F Eq x y) (hnext : ∀ a, Couples R F P (f a) (g a)) :
    Couples R F P (x >>= f) (y >>= g) :=
  h.bind fun a _ hab => hab ▸ hnext a

theorem map_eq {x y : Stateful σ α} (h : Couples R F Eq x y) (f : α → γ) :
    Couples R F Eq (f <$> x) (f <$> y) := by
  rw [map_eq_pure_bind, map_eq_pure_bind]
  exact h.bind_eq fun _ => .pure rfl

theorem mapM {f g : α → Stateful σ β} {as : List α} (h : ∀ a ∈ as, Couples R F Eq (f a) (g a)) :
    Couples R F Eq (as.mapM f) (as.mapM g) := by
  induction as with
  | nil => exact .pure rfl
  | cons a as ih =>
    obtain ⟨ha, has⟩ := List.forall_mem_cons.mp h
    rw [List.mapM_cons, List.mapM_cons]
    exact ha.bind_eq fun b => (ih has).bind_eq fun bs => .pure rfl

theorem of_keeps {P : σ → Prop} {x : Stateful σ α}
    (h : ∀ s a s', P s → runFrom s x = (.ok a, s') → P s') :
    Couples (fun s s' => s = s' ∧ P s) (fun _ _ => True) Eq x x := by
  refine ⟨?_⟩
  rintro s _ ⟨rfl, hs⟩
  cases hrun : runFrom s x with
  | mk outcome after =>
    cases outcome with
    | ok a => exact .ok rfl ⟨rfl, h s a after hs hrun⟩
    | error fault => exact .error trivial

end Couples

end Meet

open Element (Varies)

def Store.LooksLike (t t' : Store) : Prop :=
  ∀ name, t.find? name = t'.find? name

structure Lookalike (shadowed : String → Bool) (E : Store → Store → Prop) : Prop where
  find? {t t' : Store} : E t t' → t.LooksLike t'
  count {t t' : Store} : E t t' → ∀ name, t.count name = t'.count name
  set {t t' : Store} : E t t' → ∀ name value, E (t.set name value) (t'.set name value)
  shadow {t t' : Store} : E t t' → ∀ name value value', shadowed name →
    E (t.set name value) (t'.set name value')
  setCount {t t' : Store} : E t t' → ∀ name value, E (t.setCount name value) (t'.setCount name value)

structure Resolution.Alike (E : Store → Store → Prop) (r r' : Resolution) : Prop where
  store : E r.store r'.store
  warnings : r.warnings = r'.warnings

def PassState.Alike (E : Store → Store → Prop) (s s' : PassState) : Prop :=
  Resolution.Alike E s.resolution s'.resolution

section Resolving

variable {shadowed : String → Bool} {E : Store → Store → Prop}

theorem Store.text?_congr {t t' : Store} (h : t.LooksLike t') (name : String) :
    t.text? name = t'.text? name := by
  rw [Store.text?, Store.text?, h name]

theorem Store.textD_congr {t t' : Store} (h : t.LooksLike t')
    (name default : String) : t.textD name default = t'.textD name default := by
  rw [Store.textD, Store.textD, h name]

theorem Identifier.assign_congr {t t' : Store} (h : t.LooksLike t')
    (attributes : Attributes) (title : Line) :
    Identifier.assign t attributes title = Identifier.assign t' attributes title := by
  rw [Identifier.assign, Identifier.assign, Store.textD_congr h, Store.textD_congr h]

theorem Event.nextValue_congr {t t' : Store} (h : ∀ name, t.count name = t'.count name)
    (use : CounterUse) : Event.nextValue t use = Event.nextValue t' use := by
  rw [Event.nextValue, Event.nextValue, h]

theorem couples_run (hE : Lookalike shadowed E) (event : Event) :
    Couples (Resolution.Alike E) (Resolution.Alike E) Eq event.run event.run := by
  refine ⟨fun r r' h => ?_⟩
  cases event with
  | declare name value => exact .ok rfl ⟨hE.set h.store name value, h.warnings⟩
  | reset name => exact .ok rfl ⟨hE.set h.store name .nil, h.warnings⟩
  | reference name =>
    rw [Event.run, runFrom_refer, runFrom_refer, Store.text?_congr (hE.find? h.store)]
    cases r'.store.text? name with
    | some s => exact .ok rfl h
    | none => exact .ok rfl ⟨h.store, by rw [h.warnings]⟩
  | count use =>
    rw [Event.run, runFrom_advance, runFrom_advance, Event.nextValue_congr (hE.count h.store)]
    cases Event.nextValue r'.store use with
    | error fault => exact .error h
    | ok value =>
      dsimp only
      cases value.shown? with
      | none => exact .error h
      | some shown => exact .ok rfl ⟨hE.setCount h.store use.name value, h.warnings⟩

theorem couples_resolve (hE : Lookalike shadowed E) (elements : List Element) :
    Couples (Resolution.Alike E) (Resolution.Alike E) Eq (resolve elements) (resolve elements) := by
  rw [resolve_eq]
  exact (Couples.mapM fun event _ => couples_run hE event).map_eq _

theorem couples_resolveElement (hE : Lookalike shadowed E) (x : Element) :
    Couples (Resolution.Alike E) (Resolution.Alike E) Eq (resolveElement x) (resolveElement x) := by
  rw [resolveElement, resolving?]
  cases Event.ofElement? x with
  | some event => exact couples_run hE event
  | none => exact (Couples.mapM fun s _ => couples_resolve hE s).map_eq _

theorem resolveElement_of_declared {x : Element} {name : String} {value : Value}
    (h : x.declared? = some (name, value)) (r : Resolution) :
    runFrom r (resolveElement x) = (.ok x, { r with store := r.store.set name value }) := by
  obtain rfl | ⟨rfl, rfl⟩ := Element.eq_of_declared? h <;> rfl

theorem couples_declared (hE : Lookalike shadowed E) {x y : Element} {name : String}
    {value value' : Value} (hx : x.declared? = some (name, value))
    (hy : y.declared? = some (name, value')) (hname : shadowed name) :
    Couples (Resolution.Alike E) (Resolution.Alike E) (fun a b => a = x ∧ b = y)
      (resolveElement x) (resolveElement y) := by
  refine ⟨fun r r' h => ?_⟩
  rw [resolveElement_of_declared hx, resolveElement_of_declared hy]
  exact .ok ⟨rfl, rfl⟩ ⟨hE.shadow h.store name value value' hname, h.warnings⟩

end Resolving

namespace Pass

variable {α : Type} {shadowed : String → Bool} {E : Store → Store → Prop} {S S' : Setting}
  {R F : PassState → PassState → Prop}

theorem runFrom_resolving (s : PassState) (action : Resolve α) :
    runFrom s (resolving action) =
      ((runFrom s.resolution action).1,
        { s with resolution := (runFrom s.resolution action).2 }) :=
  rfl

theorem couples_ofExcept (hfails : ∀ {s s'}, R s s' → F s s') (outcome : Except Fault α) :
    Couples R F Eq (ofExcept outcome) (ofExcept outcome) := by
  refine ⟨fun s s' hs => ?_⟩
  cases outcome with
  | ok a => exact .ok rfl hs
  | error fault => exact .error (hfails hs)

theorem optionsOf_congr {t t' : Store} (h : t.LooksLike t') :
    optionsOf t = optionsOf t' := by
  rw [optionsOf, optionsOf, Store.text?_congr h]

theorem treat_of_declared {x : Element} {name : String} {value : Value} (handed : Handed)
    (h : x.declared? = some (name, value)) :
    treat S handed x = resolving (resolveElement x) := by
  obtain rfl | ⟨rfl, rfl⟩ := Element.eq_of_declared? h <;> cases handed <;> rfl

structure Abreast (shadowed : String → Bool) (R F : PassState → PassState → Prop)
    (S S' : Setting) : Prop where
  grammar : S.grammar = S'.grammar
  fails {s s' : PassState} : R s s' → F s s'
  find? {s s' : PassState} : R s s' → s.resolution.store.LooksLike s'.resolution.store
  lines (steps : List Step) (block : String) (lines : List Line) :
    Couples R F Eq (applyLines S steps block lines) (applyLines S' steps block lines)
  resolve (x : Element) :
    Couples R F Eq (resolving (resolveElement x)) (resolving (resolveElement x))
  declared {x y : Element} {name : String} {value value' : Value} :
    x.declared? = some (name, value) → y.declared? = some (name, value') → shadowed name →
    Couples R F (fun a b => a = x ∧ b = y) (resolving (resolveElement x)) (resolving (resolveElement y))

namespace Abreast

variable (h : Abreast shadowed R F S S')
include h

theorem store : Couples R F Store.LooksLike Pass.store Pass.store where
  meet _ _ hs := .ok (h.find? hs) hs

theorem applyInline (steps : List Step) (block : String) (line : Line) :
    Couples R F Eq (Pass.applyInline S steps block line) (Pass.applyInline S' steps block line) :=
  (h.lines steps block [line]).bind_eq fun _ => .pure rfl

theorem applyTitle (steps : List Step) (attributes : Attributes) (title : Line) :
    Couples R F Eq (Pass.applyTitle S steps attributes title)
      (Pass.applyTitle S' steps attributes title) :=
  (h.applyInline steps "section title" title).bind_eq fun read =>
    h.store.bind fun _ _ ht => .pure (by rw [Identifier.assign_congr ht])

theorem moveAttribution (kind : BlockKind) (attributes : Attributes) (lines : List Line) :
    Couples R F Eq (Pass.moveAttribution S kind attributes lines)
      (Pass.moveAttribution S' kind attributes lines) := by
  rw [Pass.moveAttribution, Pass.moveAttribution]
  split
  · refine h.store.bind fun t t' ht => ?_
    rw [h.grammar, optionsOf_congr ht]
    split
    · exact .pure rfl
    · exact .pure rfl
  · exact .pure rfl

theorem applyImage (location : Location Element) (attributes : Attributes) :
    Couples R F Eq (Pass.applyImage S location attributes)
      (Pass.applyImage S' location attributes) := by
  refine (h.applyInline [.attributes] "image block" location.path).bind_eq fun path =>
    h.store.bind fun t t' ht => ?_
  rw [Store.textD_congr ht]
  dsimp only
  split
  · exact .pure rfl
  · exact .pure rfl

theorem applyLeaf (x : Element) :
    Couples R F Eq (Pass.applyLeaf S x) (Pass.applyLeaf S' x) := by
  fun_cases Pass.applyLeaf S x with
  | case1 location attributes => exact h.applyImage location attributes
  | case2 _ hleaf =>
    rw [applyLeaf.eq_2 _ _ hleaf]
    exact h.resolve x

theorem varies_of_declared {x y : Element} {name : String} {value value' : Value}
    (hx : x.declared? = some (name, value)) (hy : y.declared? = some (name, value'))
    (hname : shadowed name) (hvalue : value.accepted) (hvalue' : value'.accepted) :
    Couples R F (Varies shadowed) (resolving (resolveElement x)) (resolving (resolveElement y)) := by
  refine (h.declared hx hy hname).imp ?_
  rintro a b ⟨rfl, rfl⟩
  exact .declared hx hy hname hvalue hvalue'

theorem stepsOr (handed : Handed) (own : Except Fault (List Step)) :
    Couples R F Eq (Pass.stepsOr handed own) (Pass.stepsOr handed own) := by
  cases handed with
  | none => exact couples_ofExcept h.fails own
  | some steps => exact .pure rfl

theorem moveUnlessHanded (handed : Handed) (kind : BlockKind) (attributes : Attributes)
    (lines : List Line) :
    Couples R F Eq (Pass.moveUnlessHanded S handed kind attributes lines)
      (Pass.moveUnlessHanded S' handed kind attributes lines) := by
  cases handed with
  | none => exact h.moveAttribution kind attributes lines
  | some _ => exact .pure rfl

theorem enter_elementBlock (handed : Handed) (kind : BlockKind) (attributes : Attributes)
    (xs ys : List Element) :
    Couples R F Eq (enter S handed (.elementBlock kind attributes xs))
      (enter S' handed (.elementBlock kind attributes ys)) := by
  cases handed with
  | none => exact (couples_ofExcept h.fails _).map_eq some
  | some steps => exact .pure rfl

theorem through (handed : Handed) (xs ys : List Element) (hys : List.Forall₂ (Varies shadowed) xs ys) :
    Couples R F (List.Forall₂ (Varies shadowed)) (Pass.through S handed xs)
      (Pass.through S' handed ys) := by
  -- A block may hand down steps of its own, so this is for whatever is handed.
  refine block_induction
    (P := fun x => ∀ handed y, Varies shadowed x y →
      Couples R F (Varies shadowed) (treat S handed x) (treat S' handed y))
    (Q := fun xs => ∀ handed ys, List.Forall₂ (Varies shadowed) xs ys →
      Couples R F (List.Forall₂ (Varies shadowed)) (Pass.through S handed xs)
        (Pass.through S' handed ys))
    ?paragraph ?lineBlock ?elementBlock ?sectionBlock ?listItem ?labeledItem ?continued ?leaf ?nil
    ?cons xs handed ys hys
  case paragraph =>
    intro attributes lines handed y hy
    obtain rfl := hy.of_paragraph
    rw [treat_paragraph, treat_paragraph]
    exact (h.stepsOr ..).bind_eq fun _ => (h.lines ..).bind_eq fun _ => .pure .same
  case lineBlock =>
    intro kind attributes lines handed y hy
    obtain rfl := hy.of_lineBlock
    rw [treat_lineBlock, treat_lineBlock]
    exact (h.stepsOr ..).bind_eq fun _ => (h.moveUnlessHanded ..).bind_eq fun _ =>
      (h.lines ..).bind_eq fun _ => .pure .same
  case elementBlock =>
    intro kind attributes elements ih handed y hy
    obtain ⟨ys, rfl, hys⟩ := hy.of_elementBlock
    rw [treat_elementBlock, treat_elementBlock]
    exact (h.enter_elementBlock ..).bind_eq fun next =>
      (ih next ys hys).bind fun _ _ hbody => .pure (.elementBlock hbody)
  case sectionBlock =>
    intro level attributes title elements ih handed y hy
    obtain ⟨ys, rfl, hys⟩ := hy.of_sectionBlock
    rw [treat_sectionBlock, treat_sectionBlock]
    exact (h.applyTitle ..).bind_eq fun _ =>
      (ih handed ys hys).bind fun _ _ hbody => .pure (.sectionBlock hbody)
  case listItem =>
    intro marker attributes elements ih handed y hy
    obtain ⟨ys, rfl, hys⟩ := hy.of_listItem
    rw [treat_listItem, treat_listItem]
    exact (ih handed ys hys).bind fun _ _ hbody => .pure (.listItem hbody)
  case labeledItem =>
    intro level term attributes elements ih handed y hy
    obtain ⟨ys, rfl, hys⟩ := hy.of_labeledItem
    rw [treat_labeledItem, treat_labeledItem]
    exact (h.applyInline ..).bind_eq fun _ =>
      (ih handed ys hys).bind fun _ _ hbody => .pure (.labeledItem hbody)
  case continued =>
    intro offset x ih handed y hy
    obtain ⟨inner, rfl, hinner⟩ := hy.of_continued
    rw [treat_continued, treat_continued]
    exact (ih handed inner hinner).bind fun _ _ hafter => .pure (.continued hafter)
  case leaf =>
    -- Either the same element on both sides, or what each of them declares for a shadowed name.
    intro x hleaf handed y hy
    cases hy with
    | same =>
      rw [treat_of_leaf hleaf, treat_of_leaf hleaf]
      exact (h.applyLeaf x).imp fun _ _ hab => hab ▸ .same
    | declared hx hy hname hvalue hvalue' =>
      rw [treat_of_declared handed hx, treat_of_declared handed hy]
      exact h.varies_of_declared hx hy hname hvalue hvalue'
    | elementBlock => exact hleaf.elim
    | sectionBlock => exact hleaf.elim
    | listItem => exact hleaf.elim
    | labeledItem => exact hleaf.elim
    | continued => exact hleaf.elim
  case nil =>
    intro handed ys hys
    cases hys
    rw [through_nil, through_nil]
    exact .pure .nil
  case cons =>
    intro x rest ih ihrest handed ys hys
    cases hys with
    | cons hfirst hrest =>
      rw [through_cons, through_cons]
      exact (ih handed _ hfirst).bind fun _ _ ha => (ihrest handed _ hrest).bind fun _ _ hothers =>
        .pure (.cons ha hothers)

theorem applyElements (xs ys : List Element) (hys : List.Forall₂ (Varies shadowed) xs ys) :
    Couples R F (List.Forall₂ (Varies shadowed)) (Pass.applyElements S xs)
      (Pass.applyElements S' ys) :=
  h.through none xs ys hys

end Abreast

section Recording

variable {grammar : Grammar} {tracing tracing' : Bool}

theorem couples_resolving {β : Type} {Q : α → β → Prop} {action : Resolve α} {action' : Resolve β}
    (h : Couples (Resolution.Alike E) (Resolution.Alike E) Q action action') :
    Couples (PassState.Alike E) (PassState.Alike E) Q (resolving action) (resolving action') := by
  refine ⟨fun s s' hs => ?_⟩
  have hmeet := h.meet _ _ hs
  rw [runFrom_resolving, runFrom_resolving]
  generalize runFrom s.resolution action = first at hmeet
  generalize runFrom s'.resolution action' = second at hmeet
  cases hmeet with
  | ok hq hr => exact .ok hq hr
  | error hr => exact .error hr

theorem couples_recordStep (setting setting' : Setting) (record : Record) :
    Couples (PassState.Alike E) (PassState.Alike E) Eq (recordStep setting record)
      (recordStep setting' record) := by
  refine ⟨fun s s' hs => ?_⟩
  rw [recordStep, recordStep]
  split <;> split <;> exact .ok rfl hs

theorem couples_applyStep (hE : Lookalike shadowed E) (block : String) (step : Step)
    (lines : List Line) :
    Couples (PassState.Alike E) (PassState.Alike E) Eq
      (applyStep ⟨grammar, tracing⟩ block step lines)
      (applyStep ⟨grammar, tracing'⟩ block step lines) := by
  rw [applyStep, applyStep]
  split
  · exact .pure rfl
  · next rule hrule =>
    have hstore : Couples (PassState.Alike E) (PassState.Alike E) Store.LooksLike store store :=
      ⟨fun _ _ hs => .ok (hE.find? hs.store) hs⟩
    refine hstore.bind fun t t' ht => ?_
    rw [optionsOf_congr ht]
    refine (couples_ofExcept id _).bind_eq fun line => ?_
    split
    · exact (couples_resolving (couples_resolve hE line)).bind_eq fun _ => .pure rfl
    · exact .pure rfl

theorem couples_applySteps (hE : Lookalike shadowed E) (block : String) (index : Nat)
    (steps : List Step) (lines : List Line) :
    Couples (PassState.Alike E) (PassState.Alike E) Eq
      (applySteps ⟨grammar, tracing⟩ block index steps lines)
      (applySteps ⟨grammar, tracing'⟩ block index steps lines) := by
  induction steps generalizing index lines with
  | nil => exact .pure rfl
  | cons step rest ih =>
    rw [applySteps, applySteps]
    exact (couples_applyStep hE block step lines).bind_eq fun after =>
      (couples_recordStep ..).bind_eq fun _ => ih _ after

theorem couples_applyLines (hE : Lookalike shadowed E) (steps : List Step) (block : String)
    (lines : List Line) :
    Couples (PassState.Alike E) (PassState.Alike E) Eq
      (applyLines ⟨grammar, tracing⟩ steps block lines)
      (applyLines ⟨grammar, tracing'⟩ steps block lines) := by
  rw [applyLines, applyLines]
  split
  · exact .pure rfl
  · exact couples_applySteps hE block 0 steps lines

theorem abreast_of_lookalike (hE : Lookalike shadowed E) (grammar : Grammar)
    (tracing tracing' : Bool) :
    Abreast shadowed (PassState.Alike E) (PassState.Alike E) ⟨grammar, tracing⟩
      ⟨grammar, tracing'⟩ where
  grammar := rfl
  fails := id
  find? hs := hE.find? hs.store
  lines := couples_applyLines hE
  resolve x := couples_resolving (couples_resolveElement hE x)
  declared hx hy hname := couples_resolving (couples_declared hE hx hy hname)

end Recording

end Pass

end Manuscript
