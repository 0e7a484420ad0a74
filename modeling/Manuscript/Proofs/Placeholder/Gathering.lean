import Manuscript.Proofs.Line
import Manuscript.Proofs.Placeholder.Preservation

namespace Manuscript

open Pending

structure Standing {ε : Type} (event? : Element → Option ε) : Prop where
  text (s : String) : event? (.text s) = none
  quoted (style : Style) (attributes : Attributes) (content : List Element) :
    event? (.quoted style attributes content) = none
  quotation (mark : QuoteMark) (content : List Element) : event? (.quotation mark content) = none
  blankLine : event? .blankLine = none
  withChildren (x : Element) (sequences : List (List Element)) :
    event? x = none → event? (x.withChildren sequences) = none

variable {ε : Type} {event? : Element → Option ε}

theorem gather_singleton (x : Element) : gather event? [x] = x.gather event? := by
  rw [gather_cons, gather_nil, List.append_nil]

theorem gather_of_mem_setAside {lines : List Line} {x : Element} (h : x ∈ setAside lines) :
    x.gather event? ⊆ gather event? lines.flatten := by
  intro event hevent
  rw [gather_eq]
  exact List.mem_flatMap.mpr ⟨x, (List.mem_filter.mp h).1, hevent⟩

namespace Standing

variable (h : Standing event?)
include h

theorem gather_quoted (style : Style) (attributes : Attributes) (content : List Element) :
    (Element.quoted style attributes content).gather event? =
      gather event? content ++ (sequencesOf attributes.entries).flatMap (gather event?) := by
  rw [Element.gather, h.quoted]
  rfl

theorem gather_quotation (mark : QuoteMark) (content : List Element) :
    (Element.quotation mark content).gather event? = gather event? content := by
  rw [Element.gather, h.quotation]
  exact List.append_nil _

theorem gather_parsePayload {parse : String → Except Fault (List Element)}
    (hparse : ∀ s parsed, parse s = .ok parsed → gather event? parsed = []) (element : Element) :
    ∀ payload, parsePayload parse element = .ok payload →
      payload.gather event? = element.gather event? := by
  intro payload hpayload
  refine payload_induction
    (P := fun element payload => payload.gather event? = element.gather event?)
    (Q := fun content fragments => gather event? fragments = gather event? content)
    ?quoted ?quotation ?other ?nil ?text ?cons hpayload
  case quoted =>
    intro style attributes content fragments ih
    rw [h.gather_quoted, h.gather_quoted, gather_merge h.text, ih]
  case quotation =>
    intro mark content fragments ih
    rw [h.gather_quotation, h.gather_quotation, gather_merge h.text, ih]
  case other => exact fun _ _ _ => rfl
  case nil => rfl
  case text =>
    intro s rest parsed others hparsed ih
    rw [gather_append, hparse s parsed hparsed, ih, gather_text_cons h.text]
    rfl
  case cons =>
    intro x rest payload others _ _ ih ihrest
    rw [gather_cons, gather_cons, ih, ihrest]

theorem mem_gather_putBack {original : UInt32 → Element} {elements : List Element}
    (helements : gather event? elements = []) {event : ε}
    (hevent : event ∈ gather event? (putBack original elements)) :
    ∃ reference, event ∈ (original reference).gather event? := by
  induction elements using sequence_induction with
  | step elements ih =>
    rw [putBack, substituted_eq, id, gather_eq, List.mem_flatMap] at hevent
    obtain ⟨y, hy, hevent⟩ := hevent
    obtain ⟨x, hx, rfl⟩ := List.mem_map.mp hy
    cases hplaceholder : placeholder? x with
    | some reference =>
      rw [hplaceholder] at hevent
      exact ⟨reference, hevent⟩
    | none =>
      rw [gather_eq, List.flatMap_eq_nil_iff] at helements
      obtain ⟨hnone, hchildren⟩ := (Element.gather_eq_nil_iff event?).mp (helements x hx)
      rw [hplaceholder] at hevent
      dsimp only at hevent
      rw [Element.gather, h.withChildren _ _ hnone,
        Element.children_withChildren (List.length_map ..)] at hevent
      obtain ⟨s', hs', hevent⟩ := List.mem_flatMap.mp hevent
      obtain ⟨s, hs, rfl⟩ := List.mem_map.mp hs'
      exact ih x hx s hs (hchildren s hs) hevent

theorem gather_subset_of_reread {grammar : Grammar} {rule : Rule} {options : Options}
    (hparse : ∀ s parsed, grammar rule options s = .ok parsed → gather event? parsed = [])
    {lines : List Line} {line : Line} (hread : Pass.reread grammar rule options lines = .ok line) :
    gather event? line ⊆ gather event? lines.flatten := by
  obtain ⟨payloads, hpayloads⟩ := Pass.exists_payloads_of_reread hread
  obtain ⟨parsed, hparsed⟩ := Pass.exists_parsed_of_reread hread hpayloads
  obtain rfl := Pass.eq_of_reread hread hpayloads hparsed
  intro event hevent
  rw [gather_merge h.text] at hevent
  obtain ⟨reference, hevent⟩ := h.mem_gather_putBack (hparse _ _ hparsed) hevent
  rcases original_handedOut_cases payloads reference with hmem | hblank
  · have haside : ∀ x ∈ setAside lines, x.gather event? ⊆ gather event? lines.flatten :=
      fun x => gather_of_mem_setAside
    have hall : ∀ payload ∈ payloads, payload.gather event? ⊆ gather event? lines.flatten := by
      refine forall_of_mapM_ok (fun x payload hx hpayload => ?_) hpayloads haside
      rw [h.gather_parsePayload hparse x payload hpayload]
      exact hx
    exact hall _ hmem hevent
  · rw [hblank, Element.gather, h.blankLine] at hevent
    cases hevent

end Standing

end Manuscript
