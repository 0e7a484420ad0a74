import Manuscript.Proofs.Line
import Manuscript.Proofs.Markup.Inline
import Manuscript.Proofs.Run

namespace Manuscript

open Event Pass

structure Stable (p : Element → Prop) : Prop where
  text (s : String) : p (.text s)
  blankLine : p .blankLine
  withChildren (x : Element) (sequences : List (List Element)) : p (x.withChildren sequences) ↔ p x
  inline {x : Element} : p x → x.Inline

structure Steady (grammar : Grammar) (p : Element → Prop) : Prop extends Stable p where
  parse {rule : Rule} {options : Options} {s : String} {parsed : List Element} :
    grammar rule options s = .ok parsed → Everywhere p parsed

variable {grammar : Grammar} {tracing : Bool} {p : Element → Prop} {r : Resolution} {block : String}
  {index : Nat} {step : Step} {steps : List Step} {line resolved : Line} {lines after : List Line}
  {s s' : PassState}

namespace Stable

theorem merge (h : Stable p) (elements : List Element) :
    Everywhere p (Manuscript.merge elements) ↔ Everywhere p elements :=
  everywhere_merge (fun s t => iff_of_true (h.text _) ⟨h.text s, h.text t⟩) (h.text "") elements

theorem textual (h : Stable p) : Textual p where
  merge := h.merge
  quoted {style attributes content content'} _ hp := by
    have hp' := (h.withChildren _ (content' :: sequencesOf attributes.entries)).mpr hp
    rwa [Element.withChildren, withSequences_sequencesOf] at hp'
  quotation {_ _ content'} _ hp := (h.withChildren _ [content']).mpr hp
  blankLine := h.blankLine

theorem resolve (h : Stable p) (hline : Everywhere p line)
    (hresolve : (runFrom r (resolve line)).1 = .ok resolved) : Everywhere p resolved := by
  obtain ⟨outcomes, hfilled, houtcomes⟩ := outcomes_of_runFrom_resolve hresolve
  refine (hfilled.everywhere_iff h.merge h.withChildren).mpr ⟨hline.around, fun o ho => ?_⟩
  rcases houtcomes o ho with ⟨s, rfl⟩ | ⟨event, hevent, rfl⟩
  · exact throughout_text.mpr (h.text s)
  · obtain ⟨x, hx, hfound⟩ := visited_of_mem_gather _ hevent
    exact eq_element_of_ofElement? hfound ▸ throughout_of_visited hline hx

theorem reread (h : Stable p) {rule : Rule} {options : Options}
    (hparse : ∀ s parsed, grammar rule options s = .ok parsed → Everywhere p parsed)
    (hlines : ∀ line ∈ lines, Everywhere p line)
    (hread : Pass.reread grammar rule options lines = .ok line) : Everywhere p line :=
  everywhere_of_reread h.textual (fun _ => id)
    (fun _ hx _ => ⟨h.inline hx, fun _ => (h.withChildren ..).mpr hx⟩) (fun s parsed _ => hparse s parsed)
    (hparse _) hlines hread

theorem applyStep (h : Stable p)
    (hparse : ∀ rule options s parsed, step.rule? = some rule → grammar rule options s = .ok parsed →
      Everywhere p parsed)
    (hlines : ∀ line ∈ lines, Everywhere p line)
    (hrun : runFrom s (Pass.applyStep ⟨grammar, tracing⟩ block step lines) = (.ok after, s')) :
    ∀ line ∈ after, Everywhere p line := by
  cases hrule : step.rule? with
  | none =>
    rw [Pass.applyStep, hrule] at hrun
    cases hrun
    exact everywhere_splitLines (fun _ part _ _ => h.text part) hlines
  | some rule =>
    obtain ⟨line, hread, hcases⟩ := applyStep_cases hrule hrun
    have hline := h.reread (fun s parsed => hparse rule _ s parsed hrule) hlines hread
    rcases hcases with ⟨-, rfl, -⟩ | ⟨-, resolved, resolution, hresolve, rfl, -⟩
    · exact List.forall_mem_singleton.mpr hline
    · exact List.forall_mem_singleton.mpr (h.resolve hline (congrArg Prod.fst hresolve))

theorem applySteps (h : Stable p)
    (hparse : ∀ step ∈ steps, ∀ rule options s parsed, step.rule? = some rule →
      grammar rule options s = .ok parsed → Everywhere p parsed)
    (hlines : ∀ line ∈ lines, Everywhere p line)
    (hrun : runFrom s (Pass.applySteps ⟨grammar, tracing⟩ block index steps lines) = (.ok after, s')) :
    ∀ line ∈ after, Everywhere p line :=
  holds_of_applySteps (I := fun _ lines => ∀ line ∈ lines, Everywhere p line)
    (fun step hmem _ _ _ _ hlines => h.applyStep (hparse step hmem) hlines) hlines hrun

end Stable

namespace Steady

theorem reread (h : Steady grammar p) {rule : Rule} {options : Options}
    (hlines : ∀ line ∈ lines, Everywhere p line)
    (hread : Pass.reread grammar rule options lines = .ok line) : Everywhere p line :=
  h.toStable.reread (fun _ _ => h.parse) hlines hread

theorem applyStep (h : Steady grammar p) (hlines : ∀ line ∈ lines, Everywhere p line)
    (hrun : runFrom s (Pass.applyStep ⟨grammar, tracing⟩ block step lines) = (.ok after, s')) :
    ∀ line ∈ after, Everywhere p line :=
  h.toStable.applyStep (fun _ _ _ _ _ => h.parse) hlines hrun

end Steady

theorem steady_inline : Steady Fragment.parse Element.Inline where
  text := inline_text
  blankLine := rfl
  withChildren := inline_withChildren
  inline := id
  parse := Fragment.inline_parse

theorem Element.declared?_withChildren (x : Element) (sequences : List (List Element)) :
    (x.withChildren sequences).declared? = x.declared? := by
  fun_cases withChildren x sequences <;> rfl

def Grammar.Inert (grammar : Grammar) : Prop :=
  ∀ rule options s parsed, grammar rule options s = .ok parsed → Everywhere Element.Inert parsed

theorem Fragment.parse_inert : Grammar.Inert parse :=
  fun _ _ _ _ => inert_parse

theorem steady_inert {grammar : Grammar} (h : grammar.Inert) : Steady grammar Element.Inert where
  text := inert_text
  blankLine := ⟨rfl, rfl⟩
  withChildren x sequences := by
    rw [Element.Inert, inline_withChildren, Element.declared?_withChildren]
    rfl
  inline hx := hx.1
  parse hparsed := h _ _ _ _ hparsed

section Live

variable {store : Store} {event : Event} {turn : Turn} {events : List Event}

theorem live_of_turn (hevent : event.element.declared? = none) (h : event.turn store = .ok turn) :
    turn.store.live = store.live := by
  cases event with
  | declare => cases hevent
  | reset => cases hevent
  | reference name =>
    obtain ⟨warning, hturn⟩ := turn_reference_eq store name
    rw [hturn] at h
    cases h
    rfl
  | count use =>
    obtain ⟨value, shown, -, -, rfl⟩ := of_turn_count_eq_ok h
    rfl

theorem live_storeAfter_replay (h : ∀ event ∈ events, event.element.declared? = none) :
    (storeAfter store (replay store events).1).live = store.live := by
  induction events generalizing store with
  | nil => rfl
  | cons event rest ih =>
    obtain ⟨hevent, hrest⟩ := List.forall_mem_cons.mp h
    cases hturn : event.turn store with
    | error fault =>
      rw [replay_of_error hturn]
      rfl
    | ok turn =>
      rw [replay_of_ok hturn, storeAfter_cons, ih hrest, live_of_turn hevent hturn]

theorem live_resolve {line : Line} (h : Everywhere Element.Inert line) (r : Resolution) :
    (runFrom r (resolve line)).2.store.live = r.store.live := by
  rw [runFrom_resolve_snd]
  refine live_storeAfter_replay fun event hevent => ?_
  obtain ⟨x, hx, hfound⟩ := visited_of_mem_gather _ hevent
  rw [← eq_element_of_ofElement? hfound]
  exact (throughout_of_visited h hx).1.2

end Live

section Lines

variable {grammar : Grammar} {tracing : Bool} {block : String} {index : Nat} {step : Step}
  {steps : List Step} {line : Line} {lines after : List Line} {s s' : PassState}

variable (hgrammar : grammar.Inert)
include hgrammar

theorem live_applyStep (hlines : ∀ line ∈ lines, Everywhere Element.Inert line)
    (h : runFrom s (applyStep ⟨grammar, tracing⟩ block step lines) = (.ok after, s')) :
    s'.resolution.store.live = s.resolution.store.live := by
  cases hrule : step.rule? with
  | none =>
    rw [applyStep, hrule] at h
    cases h
    rfl
  | some rule =>
    obtain ⟨line, hread, ⟨-, -, rfl⟩ | ⟨-, resolved, resolution, hresolve, -, rfl⟩⟩ :=
      applyStep_cases hrule h
    · rfl
    · have hlive := live_resolve ((steady_inert hgrammar).reread hlines hread) s.resolution
      rwa [hresolve] at hlive

theorem live_applySteps (hlines : ∀ line ∈ lines, Everywhere Element.Inert line)
    (h : runFrom s (applySteps ⟨grammar, tracing⟩ block index steps lines) = (.ok after, s')) :
    s'.resolution.store.live = s.resolution.store.live := by
  refine (holds_of_applySteps (I := fun r lines => r.store.live = s.resolution.store.live ∧
    ∀ line ∈ lines, Everywhere Element.Inert line) (fun step _ t t' before after' hkept hstep => ?_)
    ⟨rfl, hlines⟩ h).1
  exact ⟨(live_applyStep hgrammar hkept.2 hstep).trans hkept.1,
    (steady_inert hgrammar).applyStep hkept.2 hstep⟩

theorem live_applyInline (hline : Everywhere Element.Inert line) {result : Line}
    (h : runFrom s (applyInline ⟨grammar, tracing⟩ steps block line) = (.ok result, s')) :
    s'.resolution.store.live = s.resolution.store.live := by
  rw [applyInline, applyLines] at h
  obtain ⟨after, s₁, hsteps, h⟩ := runFrom_bind_eq_ok.mp h
  cases h
  exact live_applySteps hgrammar (List.forall_mem_singleton.mpr hline) hsteps

end Lines

end Manuscript
