import Manuscript.Proofs.Markup.Inline
import Manuscript.Proofs.Passthroughs.Basic
import Manuscript.Proofs.Resolution.Replay
import Manuscript.Proofs.Run

namespace Manuscript

open Glyph Pending Reader

def Bare (elements : List Element) : Prop := passthroughs elements = []

theorem bare_iff {elements : List Element} : Bare elements ↔ ∀ x ∈ elements,
    x.passthrough? = none ∧ (∀ s ∈ x.children, Bare s) ∧ ∀ s ∈ x.held, Bare s := by
  rw [Bare, passthroughs_eq, List.flatMap_eq_nil_iff]
  refine forall₂_congr fun x _ => ?_
  rw [Element.passthroughs, List.append_eq_nil_iff, List.append_eq_nil_iff,
    Option.toList_eq_nil_iff, List.map_eq_nil_iff, List.flatMap_eq_nil_iff,
    List.flatMap_eq_nil_iff, and_assoc]
  rfl

theorem bare_of_everywhere {elements : List Element}
    (h : Everywhere (fun x => x.passthrough? = none) elements) : Bare elements := by
  induction h with
  | intro hnone _ ih =>
    exact bare_iff.mpr fun x hx => ⟨hnone x hx, List.forall_mem_append.mp (ih x hx)⟩

theorem Fragment.bare_parse {rule : Rule} {options : Options} (hrule : rule ≠ .passthroughs)
    {text : String} {parsed : List Element} (h : parse rule options text = .ok parsed) :
    Bare parsed := by
  refine bare_of_everywhere ((makes_parse h).mono fun x hx => ?_)
  cases x <;> first | rfl | cases rule <;> first | exact absurd rfl hrule | cases hx

structure Grown (bare : Prop) (before after : List Passthrough) : Prop where
  sublist : before.Sublist after
  eq_of_bare : bare → after = before

namespace Grown

variable {α : Type} {bare : Prop} {before after before' after' : List Passthrough}

theorem refl (bare : Prop) (ps : List Passthrough) : Grown bare ps ps :=
  ⟨List.Sublist.refl ps, fun _ => rfl⟩

theorem weaken {other : Prop} (h : Grown bare before after) (hother : other → bare) :
    Grown other before after :=
  ⟨h.sublist, fun hbare => h.eq_of_bare (hother hbare)⟩

theorem append (h : Grown bare before after) (h' : Grown bare before' after') :
    Grown bare (before ++ before') (after ++ after') := by
  refine ⟨h.sublist.append h'.sublist, fun hbare => ?_⟩
  rw [h.eq_of_bare hbare, h'.eq_of_bare hbare]

theorem of_new {new : List Passthrough} (h : bare → new = []) : Grown bare [] new :=
  ⟨List.nil_sublist new, h⟩

theorem flatMap {f g : α → List Passthrough} {as : List α}
    (h : ∀ a ∈ as, Grown bare (f a) (g a)) : Grown bare (as.flatMap f) (as.flatMap g) := by
  induction as with
  | nil => exact refl bare []
  | cons a as ih =>
    obtain ⟨ha, has⟩ := List.forall_mem_cons.mp h
    exact ha.append (ih has)

end Grown

theorem passthroughs_quoted (style : Style) (attributes : Attributes) (content : List Element) :
    (Element.quoted style attributes content).passthroughs =
      passthroughs content ++ (sequencesOf attributes.entries).flatMap passthroughs := by
  simp [Element.passthroughs, Element.passthrough?, Element.children, Element.held]

theorem passthroughs_quotation (mark : QuoteMark) (content : List Element) :
    (Element.quotation mark content).passthroughs = passthroughs content := by
  simp [Element.passthroughs, Element.passthrough?, Element.children, Element.held]

theorem grown_parsePayload {parse : String → Except Fault (List Element)} {bare : Prop}
    (hparse : ∀ s parsed, parse s = .ok parsed → bare → Bare parsed) (element : Element) :
    ∀ payload, parsePayload parse element = .ok payload →
      Grown bare element.passthroughs payload.passthroughs := by
  intro payload h
  refine payload_induction
    (P := fun element payload => Grown bare element.passthroughs payload.passthroughs)
    (Q := fun content fragments => Grown bare (passthroughs content) (passthroughs fragments))
    ?quoted ?quotation ?other ?nil ?text ?cons h
  case quoted =>
    intro style attributes content fragments ih
    rw [passthroughs_quoted, passthroughs_quoted, passthroughs_merge]
    exact ih.append (.refl bare _)
  case quotation =>
    intro mark content fragments ih
    rw [passthroughs_quotation, passthroughs_quotation, passthroughs_merge]
    exact ih
  case other => exact fun _ _ _ => .refl bare _
  case nil => exact .refl bare _
  case text =>
    intro s rest parsed others hparsed ih
    rw [passthroughs_text_cons, passthroughs_append]
    exact (Grown.of_new (hparse s parsed hparsed)).append ih
  case cons =>
    intro x rest payload others _ _ ih ihrest
    rw [passthroughs_cons, passthroughs_cons]
    exact ih.append ihrest

theorem Element.passthrough?_withChildren_eq_none {x : Element} (h : x.passthrough? = none)
    (sequences : List (List Element)) : (x.withChildren sequences).passthrough? = none := by
  fun_induction withChildren x sequences <;> simp_all [passthrough?]

theorem grown_putBack (original : UInt32 → Element) (parsed : List Element) :
    Grown (Bare parsed) ((references parsed).flatMap fun r => (original r).passthroughs)
      (passthroughs (putBack original parsed)) := by
  induction parsed using sequence_induction with
  | step parsed ih =>
    rw [references, gather_eq, List.flatMap_assoc, putBack, substituted_eq, id, passthroughs_eq,
      List.flatMap_map]
    refine .flatMap fun x hx => ?_
    rw [Element.gather]
    -- A placeholder gives what was set aside; all others stay, with their sequences put back.
    cases hevent : placeholder? x with
    | some reference =>
      rw [List.flatMap_singleton]
      exact .refl _ _
    | none =>
      have hlength : (x.children.map (putBack original)).length = x.children.length :=
        List.length_map ..
      change Grown _ _ (x.withChildren (x.children.map (putBack original))).passthroughs
      rw [Element.passthroughs, Element.children_withChildren hlength, Element.held_withChildren,
        List.append_assoc, List.flatMap_map, ← List.nil_append (List.flatMap _ _)]
      refine .append (.of_new fun hbare => ?_) ?_
      · rw [Element.passthrough?_withChildren_eq_none (bare_iff.mp hbare x hx).1]
        rfl
      · rw [← List.append_nil (List.flatMap _ _), List.flatMap_assoc]
        refine .append (.flatMap fun s hs => ?_) (.of_new fun hbare => ?_)
        · exact (ih x hx s hs).weaken fun hbare => (bare_iff.mp hbare x hx).2.1 s hs
        · rw [List.flatMap_eq_nil_iff.mpr (bare_iff.mp hbare x hx).2.2]
          rfl

variable {grammar : Grammar} {rule : Rule} {options : Options} {lines : List Line}

theorem exactlyOnce_of_reread {payloads parsed : List Element} {line : Line}
    (few : (setAside lines).length < UInt32.size)
    (hp : (setAside lines).mapM (parsePayload (grammar rule options)) = .ok payloads)
    (hg : grammar rule options (serialized lines) = .ok parsed)
    (h : Pass.reread grammar rule options lines = .ok line) :
    ExactlyOnce (setAside lines).length parsed ∧ line = merge (putBack (nth payloads) parsed) := by
  by_cases once : ExactlyOnce (setAside lines).length parsed
  · rw [Pass.reread_eq_ok few hp hg once] at h
    exact ⟨once, (Except.ok.inj h).symm⟩
  · obtain ⟨fault, he, -⟩ := Pass.reread_eq_error few hp hg once
    rw [he] at h
    cases h

theorem grown_of_mapM {bare : Prop} {parse : String → Except Fault (List Element)}
    (hparse : ∀ s parsed, parse s = .ok parsed → bare → Bare parsed) {elements payloads : List Element}
    (h : elements.mapM (parsePayload parse) = .ok payloads) :
    Grown bare (elements.flatMap Element.passthroughs) (payloads.flatMap Element.passthroughs) := by
  induction elements generalizing payloads with
  | nil =>
    cases h
    exact .refl bare []
  | cons x rest ih =>
    rw [List.mapM_cons] at h
    obtain ⟨payload, hpayload, h⟩ := bind_eq_ok.mp h
    obtain ⟨others, hothers, h⟩ := bind_eq_ok.mp h
    cases h
    exact (grown_parsePayload hparse x payload hpayload).append (ih hothers)

theorem flatMap_nth_perm {α : Type} {count : Nat} {parsed payloads : List Element}
    (honce : ExactlyOnce count parsed) (hlength : payloads.length = count) (f : Element → List α) :
    ((references parsed).flatMap fun r => f (nth payloads r)).Perm (payloads.flatMap f) := by
  have hall : (List.range' 1 count).map (fun n => (payloads[n - 1]?).getD .blankLine) = payloads := by
    refine List.ext_getElem (by simp [hlength]) fun n hn hn' => ?_
    simp [hn']
  have hperm := (honce.map fun n => (payloads[n - 1]?).getD .blankLine).flatMap_right f
  rwa [hall, List.map_map, List.flatMap_map] at hperm

theorem subperm_of_reread {bare : Prop}
    (hparse : ∀ s parsed, grammar rule options s = .ok parsed → bare → Bare parsed)
    (few : (setAside lines).length < UInt32.size) {line : Line}
    (h : Pass.reread grammar rule options lines = .ok line) :
    (passthroughs lines.flatten).Subperm (passthroughs line) ∧
      (bare → (passthroughs lines.flatten).Perm (passthroughs line)) := by
  obtain ⟨payloads, hpayloads⟩ := Pass.exists_payloads_of_reread h
  obtain ⟨parsed, hparsed⟩ := Pass.exists_parsed_of_reread h hpayloads
  obtain ⟨honce, rfl⟩ := exactlyOnce_of_reread few hpayloads hparsed h
  have hread := grown_of_mapM hparse hpayloads
  have hmoved := flatMap_nth_perm honce (length_of_mapM_ok hpayloads) Element.passthroughs
  have hback := grown_putBack (nth payloads) parsed
  rw [passthroughs_flatten, passthroughs_merge]
  constructor
  · exact (hread.sublist.subperm.trans hmoved.symm.subperm).trans hback.sublist.subperm
  · intro hbare
    rw [hback.eq_of_bare (hparse _ _ hparsed hbare), ← hread.eq_of_bare hbare]
    exact hmoved.symm

section Resolving

open Event

variable {r r' : Resolution} {event : Event} {x y : Element} {elements result : List Element}
  {p : Passthrough}

def TextOnly (content : List Element) : Prop :=
  merge content = content ∧ ∀ x ∈ content, x.isText = true

/-- A passthrough before and after references are resolved: what it holds is resolved as any other sequence,
and joined by that, unless it is held itself. -/
structure Resolved (before after : Passthrough) : Prop where
  shield : after.shield = before.shield
  held : after.held = before.held
  unchanged : before.held = true → after.content = before.content
  resolved : before.held = false →
    ∃ r r', runFrom r (resolve before.content) = (.ok after.content, r')
  of_textOnly : TextOnly before.content → after = before

theorem resolve_eq_mapM (elements : List Element) :
    resolve elements = merge <$> elements.mapM resolveElement := by
  rw [resolve, walkM_eq]
  congr 2
  funext x
  rw [resolveElement]
  cases resolving? x <;> rfl

theorem forall₂_of_runFrom_mapM {σ α β : Type} {f : α → Stateful σ β} {Q : α → β → Prop} {s s' : σ}
    {as : List α} {bs : List β} (h : runFrom s (as.mapM f) = (.ok bs, s'))
    (hQ : ∀ a ∈ as, ∀ t t' b, runFrom t (f a) = (.ok b, t') → Q a b) : List.Forall₂ Q as bs := by
  induction as generalizing s bs with
  | nil =>
    cases h
    exact .nil
  | cons a as ih =>
    obtain ⟨ha, has⟩ := List.forall_mem_cons.mp hQ
    rw [List.mapM_cons] at h
    obtain ⟨b, s₁, hb, h⟩ := runFrom_bind_eq_ok.mp h
    obtain ⟨others, s₂, hothers, h⟩ := runFrom_bind_eq_ok.mp h
    cases h
    exact .cons (ha _ _ _ hb) (ih hothers has)

theorem runFrom_map_eq_ok {σ α β : Type} {f : α → β} {action : Stateful σ α} {s s' : σ} {b : β}
    (h : runFrom s (f <$> action) = (.ok b, s')) :
    ∃ a, runFrom s action = (.ok a, s') ∧ f a = b := by
  rw [map_eq_pure_bind] at h
  obtain ⟨a, s₁, ha, h⟩ := runFrom_bind_eq_ok.mp h
  cases h
  exact ⟨a, ha, rfl⟩

theorem resolve_textOnly (h : TextOnly elements)
    (hresolve : runFrom r (resolve elements) = (.ok result, r')) : result = elements := by
  obtain ⟨hmerge, htexts⟩ := h
  rw [resolve_eq_mapM] at hresolve
  obtain ⟨parts, hparts, rfl⟩ := runFrom_map_eq_ok hresolve
  have hsame : List.Forall₂ (· = ·) elements parts := by
    refine forall₂_of_runFrom_mapM hparts fun x hx t t' y h => ?_
    obtain ⟨s, rfl⟩ := eq_text_of_isText (htexts x hx)
    cases h
    rfl
  rw [List.forall₂_eq_eq_eq] at hsame
  rw [← hsame, hmerge]

theorem Resolved.of_held (h : p.held = true) : Resolved p p where
  shield := rfl
  held := rfl
  unchanged _ := rfl
  resolved hfree := absurd (h.symm.trans hfree) nofun
  of_textOnly _ := rfl

theorem Resolved.of_resolve (shield : Shield)
    (h : runFrom r (resolve elements) = (.ok result, r')) :
    Resolved ⟨shield, elements, false⟩ ⟨shield, result, false⟩ where
  shield := rfl
  held := rfl
  unchanged hheld := nomatch hheld
  resolved _ := ⟨r, r', h⟩
  of_textOnly htexts := congrArg (Passthrough.mk shield · false) (resolve_textOnly htexts h)

theorem forall₂_resolved_hold (ps : List Passthrough) :
    List.Forall₂ Resolved (ps.map .hold) (ps.map .hold) := by
  refine List.forall₂_same.mpr fun p hp => ?_
  obtain ⟨q, -, rfl⟩ := List.mem_map.mp hp
  exact .of_held rfl

theorem passthroughs_of_run (hevent : ofElement? x = some event)
    (h : runFrom r event.run = (.ok y, r')) : y.passthroughs = x.passthroughs := by
  cases x <;> cases hevent
  case declaration => cases h; rfl
  case reset => cases h; rfl
  all_goals
    obtain ⟨turn, hturn, rfl, -⟩ := runFrom_run_eq_ok_iff.mp h
    obtain ⟨s, hs⟩ | hs := element_of_turn hturn <;>
      rw [hs, Element.passthroughs_of_leaf rfl rfl rfl, Element.passthroughs_of_leaf rfl rfl rfl]

theorem resolved_of_run (hevent : ofElement? x = some event)
    (h : runFrom r event.run = (.ok y, r')) :
    List.Forall₂ Resolved x.passthroughs y.passthroughs := by
  have hheld : x.passthroughs = (x.held.flatMap passthroughs).map .hold := by
    cases x <;> cases hevent <;> rfl
  rw [passthroughs_of_run hevent h, hheld]
  exact forall₂_resolved_hold _

theorem resolved_withChildren {sequences : List (List Element)}
    (h : List.Forall₂ (fun s s' => ∃ t t', runFrom t (resolve s) = (.ok s', t')) x.children
      sequences) :
    List.Forall₂ Resolved x.passthrough?.toList (x.withChildren sequences).passthrough?.toList := by
  fun_induction Element.passthrough? x with
  | case1 shield content =>
    obtain _ | ⟨⟨t, t', hcontent⟩, hrest⟩ := h
    cases hrest
    exact .cons (.of_resolve shield hcontent) .nil
  | case2 offset element ih => exact ih h
  | case3 x h₁ h₂ =>
    have hnone : x.passthrough? = none := by cases x <;> simp_all [Element.passthrough?]
    rw [Element.passthrough?_withChildren_eq_none hnone]
    exact .nil

theorem forall₂_flatMap {α β γ δ : Type} {R : γ → δ → Prop} {f : α → List γ} {g : β → List δ}
    {as : List α} {bs : List β} (h : List.Forall₂ (fun a b => List.Forall₂ R (f a) (g b)) as bs) :
    List.Forall₂ R (as.flatMap f) (bs.flatMap g) := by
  induction h with
  | nil => exact .nil
  | cons hfirst _ ih => exact List.rel_append hfirst ih

theorem resolved_of_resolve (hresolve : runFrom r (resolve elements) = (.ok result, r')) :
    List.Forall₂ Resolved (passthroughs elements) (passthroughs result) := by
  induction elements using sequence_induction generalizing r r' result with
  | step elements ih =>
    rw [resolve_eq_mapM] at hresolve
    obtain ⟨parts, hparts, rfl⟩ := runFrom_map_eq_ok hresolve
    rw [passthroughs_merge, passthroughs_eq, passthroughs_eq]
    refine forall₂_flatMap (forall₂_of_runFrom_mapM hparts fun x hx t t' y h => ?_)
    rw [resolveElement, resolving?] at h
    cases hevent : ofElement? x with
    | some event =>
      rw [hevent] at h
      exact resolved_of_run hevent h
    | none =>
      rw [hevent] at h
      obtain ⟨sequences, hsequences, rfl⟩ := runFrom_map_eq_ok h
      have hchildren : List.Forall₂ (fun s s' => ∃ t t', runFrom t (resolve s) = (.ok s', t'))
          x.children sequences :=
        forall₂_of_runFrom_mapM hsequences fun s _ t t' _ hs => ⟨t, t', hs⟩
      have hinside := forall₂_of_runFrom_mapM hsequences fun s hs _ _ _ h => ih x hx s hs h
      rw [Element.passthroughs, Element.passthroughs,
        Element.children_withChildren hchildren.length_eq.symm, Element.held_withChildren]
      exact List.rel_append (List.rel_append (resolved_withChildren hchildren)
        (forall₂_flatMap hinside)) (forall₂_resolved_hold _)

end Resolving

namespace Pass

variable {tracing : Bool} {setting : Setting} {block : String} {index : Nat} {step : Step}
  {steps : List Step} {after : List Line} {s s' : PassState}

/-- All passthroughs before a step are there after it, in any order. The step that resolves references does so in
each of them that is not held, the others change none, and only the step for passthroughs adds new ones. -/
def Corresponds (step : Step) (before after : List Line) : Prop :=
  ∃ kept,
    (step = .attributes → List.Forall₂ Resolved (passthroughs before.flatten) kept) ∧
    (step ≠ .attributes → kept = passthroughs before.flatten) ∧
    kept.Subperm (passthroughs after.flatten) ∧
    (step ≠ .passthroughs → kept.Perm (passthroughs after.flatten))

theorem count_le_of_resolved [DecidableEq Passthrough] {before kept : List Passthrough}
    {p : Passthrough} (h : List.Forall₂ Resolved before kept) (htexts : TextOnly p.content) :
    before.count p ≤ kept.count p := by
  induction h with
  | nil => exact Nat.le_refl 0
  | @cons q q' before kept hfirst _ ih =>
    rw [List.count_cons, List.count_cons]
    by_cases hq : q = p
    · have hq' : q' = p := (hfirst.of_textOnly (hq ▸ htexts)).trans hq
      simpa [hq, hq'] using ih
    · simp only [beq_iff_eq, hq, if_false]
      omega

theorem Corresponds.count_le [DecidableEq Passthrough] {before after : List Line} {p : Passthrough}
    (h : Corresponds step before after) (htexts : TextOnly p.content) :
    (passthroughs before.flatten).count p ≤ (passthroughs after.flatten).count p := by
  obtain ⟨kept, hresolved, hsame, hsubperm, -⟩ := h
  refine le_trans ?_ (hsubperm.count_le p)
  by_cases hstep : step = .attributes
  · exact count_le_of_resolved (hresolved hstep) htexts
  · rw [hsame hstep]

structure Protects (step : Step) (before after : List Line) : Prop where
  corresponds : Corresponds step before after
  count_le [DecidableEq Passthrough] (p : Passthrough) : TextOnly p.content →
    (passthroughs before.flatten).count p ≤ (passthroughs after.flatten).count p

theorem corresponds_applyStep (few : (setAside lines).length < UInt32.size)
    (h : runFrom s (applyStep ⟨Fragment.parse, tracing⟩ block step lines) = (.ok after, s')) :
    Corresponds step lines after := by
  cases hrule : step.rule? with
  | none =>
    rw [applyStep, hrule] at h
    cases h
    have hstep : step ≠ .attributes := fun hstep => by rw [hstep] at hrule; cases hrule
    refine ⟨_, (absurd · hstep), fun _ => rfl, ?_⟩
    rw [passthroughs_splitLines]
    exact ⟨List.Subperm.refl _, fun _ => List.Perm.refl _⟩
  | some rule =>
    have hparse : ∀ t parsed, Fragment.parse rule (optionsOf s.resolution.store) t = .ok parsed →
        step ≠ .passthroughs → Bare parsed :=
      fun t parsed hparsed hstep => Fragment.bare_parse (Step.rule_ne_of_ne hstep hrule rfl) hparsed
    obtain ⟨line, hread, hcases⟩ := applyStep_cases hrule h
    obtain ⟨hsubperm, hperm⟩ := subperm_of_reread hparse few hread
    obtain ⟨hstep, rfl, -⟩ | ⟨rfl, resolved, resolution, hresolve, rfl, -⟩ := hcases
    · rw [Corresponds, List.flatten_singleton]
      exact ⟨_, (absurd · hstep), fun _ => rfl, hsubperm, hperm⟩
    · rw [Corresponds, List.flatten_singleton]
      -- Reading moves the passthroughs, and resolving goes on in the new order.
      obtain ⟨kept, hkept, hafter⟩ := List.perm_comp_forall₂ (hperm (by decide))
        (resolved_of_resolve hresolve)
      exact ⟨kept, fun _ => hkept, (absurd rfl ·), hafter.subperm, fun _ => hafter⟩

/-- Every step of a run keeps the passthroughs, wherever they lie and wherever it moves them. The numbers of
placeholders have 32 bits: with more elements set aside, the counter runs over and gives one number to two of them
(`Pending.keys_repeat`), which no longer come back both. -/
theorem passthroughs_protected
    (h : runFrom s (applyLines ⟨Fragment.parse, tracing⟩ steps block lines) = (.ok after, s')) :
    (lines = [] ∧ after = []) ∨
      Through (fun step before after => Takes ⟨Fragment.parse, tracing⟩ block step before after ∧
        ((setAside before).length < UInt32.size → Protects step before after)) steps lines after := by
  rw [applyLines] at h
  split at h
  · next hempty =>
    cases h
    exact .inl ⟨List.isEmpty_iff.mp hempty, rfl⟩
  · refine .inr ((through_of_applySteps h).imp fun step before after htakes => ⟨htakes, ?_⟩)
    obtain ⟨t, t', htakes⟩ := htakes
    intro few
    have hcorresponds := corresponds_applyStep few htakes
    exact ⟨hcorresponds, fun _ htexts => hcorresponds.count_le htexts⟩

section Unmerged

def unmerged : Line :=
  [.passthrough .singlePlus [.text "ab"], .passthrough .singlePlus [.text "a", .text "b"]]

def merged : Line :=
  [.passthrough .singlePlus [.text "ab"], .passthrough .singlePlus [.text "ab"]]

theorem reread_unmerged :
    reread Fragment.parse .attributes ⟨none⟩ [unmerged] = .ok unmerged := by
  have hclean : ∀ line ∈ [unmerged], Unforged line := by simp [unmerged, Unforged]
  have hparse : Fragment.parse .attributes ⟨none⟩ (serialized [unmerged]) =
      .ok [.placeholder 1, .placeholder 2] := by
    have hglyphs : linesGlyphs 0 [unmerged] = [.token (digitsOf 1), .token (digitsOf 2)] := rfl
    rw [Fragment.parse_serialized (by decide) (by decide) hclean, scan_serialized hclean, hglyphs]
    simp [Fragment.read, merge, reference_digitsOf]
  have hpayloads : (setAside [unmerged]).mapM (parsePayload (Fragment.parse .attributes ⟨none⟩)) =
      .ok unmerged := rfl
  have honce : ExactlyOnce (setAside [unmerged]).length [.placeholder 1, .placeholder 2] := by
    simp [ExactlyOnce, references_cons, placeholder?, setAside, unmerged, Element.isText]
    decide
  refine (reread_eq_ok (by decide) hpayloads hparse honce).trans ?_
  simp [putBack, substituted_eq, placeholder?, nth, unmerged, merge]

theorem resolve_unmerged (r : Resolution) : runFrom r (resolve unmerged) = (.ok merged, r) := by
  simp [resolve_eq_mapM, resolveElement, resolving?, Event.ofElement?, Element.mapChildrenM,
    Element.children, Element.withChildren, unmerged, merged, merge, pushText]

theorem applyLines_unmerged :
    runFrom ⟨⟨⟨∅, ∅, ∅⟩, []⟩, []⟩ (applyLines ⟨Fragment.parse, false⟩ [.attributes, .splitLines]
      "paragraph" [unmerged]) = (.ok [merged], ⟨⟨⟨∅, ∅, ∅⟩, []⟩, []⟩) := by
  have hstep : runFrom ⟨⟨⟨∅, ∅, ∅⟩, []⟩, []⟩ (applyStep ⟨Fragment.parse, false⟩ "paragraph"
      .attributes [unmerged]) = (.ok [merged], ⟨⟨⟨∅, ∅, ∅⟩, []⟩, []⟩) :=
    runFrom_applyStep_attributes "paragraph" reread_unmerged (resolve_unmerged _)
  rw [applyLines, if_neg (by decide), applySteps]
  exact runFrom_bind_ok hstep _

theorem passthroughs_protected_unmerged :
    ([unmerged] = [] ∧ [merged] = []) ∨
      Through (fun step before after => Takes ⟨Fragment.parse, false⟩ "paragraph" step before after ∧
        ((setAside before).length < UInt32.size → Protects step before after))
        [.attributes, .splitLines] [unmerged] [merged] :=
  passthroughs_protected applyLines_unmerged

theorem passthrough_joined :
    TextOnly [.text "ab"] ∧
      passthroughs unmerged =
        [⟨.singlePlus, [.text "ab"], false⟩, ⟨.singlePlus, [.text "a", .text "b"], false⟩] ∧
      ∃ after s', runFrom ⟨⟨⟨∅, ∅, ∅⟩, []⟩, []⟩ (applyLines ⟨Fragment.parse, false⟩
          [.attributes, .splitLines] "paragraph" [unmerged]) = (.ok after, s') ∧
        passthroughs after.flatten =
          [⟨.singlePlus, [.text "ab"], false⟩, ⟨.singlePlus, [.text "ab"], false⟩] := by
  refine ⟨⟨rfl, by simp [Element.isText]⟩, ?_, _, _, applyLines_unmerged, ?_⟩
  · simp [unmerged, passthroughs_cons, Element.passthroughs, Element.passthrough?,
      Element.children, Element.held]
  · simp [merged, passthroughs_cons, Element.passthroughs, Element.passthrough?,
      Element.children, Element.held]

end Unmerged

end Pass

end Manuscript
