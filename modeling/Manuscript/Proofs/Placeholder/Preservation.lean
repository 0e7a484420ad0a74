import Manuscript.Proofs.Merged

namespace Manuscript

open Pending

structure TextualAround {ε : Type} (event? : Element → Option ε) (p : Element → Prop) : Prop where
  merge (elements : List Element) : Around p event? (merge elements) ↔ Around p event? elements
  event?_text (s : String) : event? (.text s) = none
  event?_quoted (style : Style) (attributes : Attributes) (content : List Element) :
    event? (.quoted style attributes content) = none
  event?_quotation (mark : QuoteMark) (content : List Element) :
    event? (.quotation mark content) = none
  quoted {style : Style} {attributes : Attributes} {content content' : List Element} :
    Merged content' → p (.quoted style attributes content) → p (.quoted style attributes content')
  quotation {mark : QuoteMark} {content content' : List Element} :
    Merged content' → p (.quotation mark content) → p (.quotation mark content')
  blankLine : p .blankLine

structure Textual (p : Element → Prop) : Prop where
  merge (elements : List Element) : Everywhere p (merge elements) ↔ Everywhere p elements
  quoted {style : Style} {attributes : Attributes} {content content' : List Element} :
    Merged content' → p (.quoted style attributes content) → p (.quoted style attributes content')
  quotation {mark : QuoteMark} {content content' : List Element} :
    Merged content' → p (.quotation mark content) → p (.quotation mark content')
  blankLine : p .blankLine

theorem Textual.around {p : Element → Prop} (h : Textual p) :
    TextualAround (fun _ => (none : Option Unit)) p where
  merge elements := by
    rw [← everywhere_iff_around_none, ← everywhere_iff_around_none]
    exact h.merge elements
  event?_text _ := rfl
  event?_quoted _ _ _ := rfl
  event?_quotation _ _ := rfl
  quoted := h.quoted
  quotation := h.quotation
  blankLine := h.blankLine

theorem payload_induction {parse : String → Except Fault (List Element)}
    {P : Element → Element → Prop} {Q : List Element → List Element → Prop}
    (quoted : ∀ style attributes content fragments, Q content fragments →
      P (.quoted style attributes content) (.quoted style attributes (merge fragments)))
    (quotation : ∀ mark content fragments, Q content fragments →
      P (.quotation mark content) (.quotation mark (merge fragments)))
    (other : ∀ x, (∀ style attributes content, x ≠ .quoted style attributes content) →
      (∀ mark content, x ≠ .quotation mark content) → P x x)
    (nil : Q [] [])
    (text : ∀ s rest parsed others, parse s = .ok parsed → Q rest others →
      Q (.text s :: rest) (parsed ++ others))
    (cons : ∀ x rest payload others, x.isText = false → parsePayload parse x = .ok payload →
      P x payload → Q rest others → Q (x :: rest) (payload :: others))
    {element payload : Element} (h : parsePayload parse element = .ok payload) : P element payload := by
  refine parsePayload.induct
    (fun element => ∀ payload, parsePayload parse element = .ok payload → P element payload)
    (fun content => ∀ fragments, parseFragments parse content = .ok fragments → Q content fragments)
    ?quoted ?quotation ?other ?nil ?text ?cons element payload h
  case quoted =>
    intro style attributes content ih payload h
    rw [parsePayload] at h
    obtain ⟨fragments, hfragments, h⟩ := bind_eq_ok.mp h
    exact Except.ok.inj h ▸ quoted style attributes content fragments (ih fragments hfragments)
  case quotation =>
    intro mark content ih payload h
    rw [parsePayload] at h
    obtain ⟨fragments, hfragments, h⟩ := bind_eq_ok.mp h
    exact Except.ok.inj h ▸ quotation mark content fragments (ih fragments hfragments)
  case other =>
    intro x hquoted hquotation payload h
    rw [parsePayload.eq_3 _ _ hquoted hquotation] at h
    exact Except.ok.inj h ▸ other x hquoted hquotation
  case nil =>
    intro fragments h
    rw [parseFragments] at h
    exact Except.ok.inj h ▸ nil
  case text =>
    intro s rest ih fragments h
    rw [parseFragments] at h
    obtain ⟨parsed, hparsed, h⟩ := bind_eq_ok.mp h
    obtain ⟨others, hothers, h⟩ := bind_eq_ok.mp h
    exact Except.ok.inj h ▸ text s rest parsed others hparsed (ih others hothers)
  case cons =>
    intro x rest hnot ih ihrest fragments h
    rw [parseFragments.eq_3 _ _ _ hnot] at h
    obtain ⟨payload, hpayload, h⟩ := bind_eq_ok.mp h
    obtain ⟨others, hothers, h⟩ := bind_eq_ok.mp h
    exact Except.ok.inj h ▸ cons x rest payload others (not_isText_of_ne hnot) hpayload
      (ih payload hpayload) (ihrest others hothers)

theorem parsePayload_cases {parse : String → Except Fault (List Element)} {x y : Element}
    (h : parsePayload parse x = .ok y) :
    y = x ∨
      (∃ style attributes content content',
        x = .quoted style attributes content ∧ y = .quoted style attributes content') ∨
      ∃ mark content content', x = .quotation mark content ∧ y = .quotation mark content' := by
  fun_cases parsePayload parse x with
  | case1 style attributes content =>
    rw [parsePayload] at h
    obtain ⟨fragments, -, h⟩ := bind_eq_ok.mp h
    exact .inr (.inl ⟨style, attributes, content, _, rfl, (Except.ok.inj h).symm⟩)
  | case2 mark content =>
    rw [parsePayload] at h
    obtain ⟨fragments, -, h⟩ := bind_eq_ok.mp h
    exact .inr (.inr ⟨mark, content, _, rfl, (Except.ok.inj h).symm⟩)
  | case3 _ hquoted hquotation =>
    rw [parsePayload.eq_3 _ _ hquoted hquotation] at h
    exact .inl (Except.ok.inj h).symm

section

variable {ε : Type} {event? : Element → Option ε} {before p q : Element → Prop}

theorem around_parsePayload (hp : TextualAround event? p) (hbefore : ∀ x, before x → p x)
    {parse : String → Except Fault (List Element)}
    (hparse : ∀ s parsed, before (.text s) → parse s = .ok parsed → Around p event? parsed)
    (element : Element) : Around before event? [element] →
      ∀ payload, parsePayload parse element = .ok payload → Around p event? [payload] := by
  intro helement payload h
  refine payload_induction
    (P := fun element payload => Around before event? [element] → Around p event? [payload])
    (Q := fun content fragments => Around before event? content → Around p event? fragments)
    ?quoted ?quotation ?other ?nil ?text ?cons h helement
  case quoted =>
    intro style attributes content fragments ih hquoted
    obtain ⟨hbare, hsequences, hheld⟩ := around_singleton.mp hquoted (hp.event?_quoted ..)
    obtain ⟨hcontent, hattributes⟩ := List.forall_mem_cons.mp hsequences
    have hmerged := (hp.merge fragments).mpr (ih hcontent)
    refine around_singleton.mpr fun _ => ⟨hp.quoted (merged_merge _) (hbefore _ hbare), ?_, ?_⟩
    · exact List.forall_mem_cons.mpr ⟨hmerged, fun s hs => (hattributes s hs).mono hbefore⟩
    · exact fun s hs => (hheld s hs).mono hbefore
  case quotation =>
    intro mark content fragments ih hquotation
    obtain ⟨hbare, hsequences, hheld⟩ := around_singleton.mp hquotation (hp.event?_quotation ..)
    have hcontent := List.forall_mem_singleton.mp hsequences
    have hmerged := (hp.merge fragments).mpr (ih hcontent)
    refine around_singleton.mpr fun _ => ⟨hp.quotation (merged_merge _) (hbefore _ hbare), ?_, ?_⟩
    · exact List.forall_mem_singleton.mpr hmerged
    · exact fun s hs => (hheld s hs).mono hbefore
  case other => exact fun x _ _ hx => hx.mono hbefore
  case nil => exact fun _ => around_nil
  case text =>
    intro s rest parsed others hparsed ih hcontent
    obtain ⟨hs, hrest⟩ := (around_text_cons hp.event?_text).mp hcontent
    exact around_append.mpr ⟨hparse s parsed hs hparsed, ih hrest⟩
  case cons =>
    intro x rest payload others _ _ ih ihrest hcontent
    obtain ⟨hx, hrest⟩ := around_cons.mp hcontent
    exact around_cons.mpr ⟨ih hx, ihrest hrest⟩

theorem around_putBack
    (hback : ∀ x, q x → placeholder? x = none →
      x.held = [] ∧ ∀ sequences, p (x.withChildren sequences))
    (hkeep : ∀ x sequences, event? (x.withChildren sequences) = none → event? x = none)
    {original : UInt32 → Element} (horiginal : ∀ reference, Around p event? [original reference])
    {elements : List Element} (h : Around q event? elements) :
    Around p event? (putBack original elements) := by
  induction elements using sequence_induction with
  | step elements ih =>
    rw [putBack, substituted_eq, id, around_iff_forall_mem]
    refine List.forall_mem_map.mpr fun x hx => ?_
    cases hplaceholder : placeholder? x with
    | some reference => exact horiginal reference
    | none =>
      have hlength : (x.children.map (putBack original)).length = x.children.length :=
        List.length_map ..
      refine around_singleton.mpr fun hopen => ?_
      obtain ⟨hq, hchildren, -⟩ := around_iff.mp h x hx (hkeep _ _ hopen)
      obtain ⟨hheld, hp⟩ := hback x hq hplaceholder
      refine ⟨hp _, ?_, ?_⟩
      · change ∀ s ∈ (x.withChildren (x.children.map (putBack original))).children, _
        rw [Element.children_withChildren hlength]
        exact List.forall_mem_map.mpr fun s hs => ih x hx s hs (hchildren s hs)
      · rw [Element.held_withChildren, hheld]
        exact fun s hs => absurd hs List.not_mem_nil

theorem isText_of_parsePayload {parse : String → Except Fault (List Element)} {x y : Element}
    (h : parsePayload parse x = .ok y) : y.isText = x.isText := by
  rcases parsePayload_cases h with rfl | ⟨_, _, _, _, rfl, rfl⟩ | ⟨_, _, _, rfl, rfl⟩ <;> rfl

theorem mem_of_mem_setAside {lines : List Line} {x : Element} (h : x ∈ setAside lines) :
    ∃ line ∈ lines, x ∈ line :=
  List.mem_flatten.mp (List.mem_filter.mp h).1

theorem Pending.original_handedOut_cases (payloads : List Element) (reference : UInt32) :
    (handedOut payloads).original reference ∈ payloads ∨
      (handedOut payloads).original reference = .blankLine := by
  rw [original]
  cases hlookup : (handedOut payloads).entries.lookup reference with
  | none => exact .inr rfl
  | some x =>
    obtain ⟨before, after, happend, -⟩ := List.lookup_eq_some_iff.mp hlookup
    have hmem : (reference, x) ∈ (handedOut payloads).entries := by
      rw [happend]
      exact List.mem_append_right _ List.mem_cons_self
    exact .inl (List.of_mem_zip hmem).2

theorem around_original_handedOut (hblank : p .blankLine) {payloads : List Element}
    (h : ∀ x ∈ payloads, Around p event? [x]) (reference : UInt32) :
    Around p event? [(handedOut payloads).original reference] := by
  rcases original_handedOut_cases payloads reference with hmem | hnone
  · exact h _ hmem
  · rw [hnone]
    exact (everywhere_leaf hblank rfl rfl).around

namespace Pass

variable {grammar : Grammar} {rule : Rule} {options : Options} {lines : List Line} {line : Line}

theorem around_of_reread (hp : TextualAround event? p) (hbefore : ∀ x, before x → p x)
    (hback : ∀ x, q x → placeholder? x = none →
      x.held = [] ∧ ∀ sequences, p (x.withChildren sequences))
    (hkeep : ∀ x sequences, event? (x.withChildren sequences) = none → event? x = none)
    (hparse : ∀ s parsed, before (.text s) → grammar rule options s = .ok parsed →
      Around p event? parsed)
    (hread : ∀ parsed, grammar rule options (serialized lines) = .ok parsed →
      Around q event? parsed)
    (haside : ∀ x ∈ setAside lines, Around before event? [x])
    (h : reread grammar rule options lines = .ok line) : Around p event? line := by
  obtain ⟨payloads, hpayloads⟩ := exists_payloads_of_reread h
  obtain ⟨parsed, hparsed⟩ := exists_parsed_of_reread h hpayloads
  obtain rfl := eq_of_reread h hpayloads hparsed
  have hall := forall_of_mapM_ok
    (fun x payload hx => around_parsePayload hp hbefore hparse x hx payload) hpayloads haside
  rw [hp.merge]
  exact around_putBack hback hkeep (around_original_handedOut hp.blankLine hall)
    (hread parsed hparsed)

theorem everywhere_of_reread (hp : Textual p) (hbefore : ∀ x, before x → p x)
    (hback : ∀ x, q x → placeholder? x = none →
      x.held = [] ∧ ∀ sequences, p (x.withChildren sequences))
    (hparse : ∀ s parsed, before (.text s) → grammar rule options s = .ok parsed →
      Everywhere p parsed)
    (hread : ∀ parsed, grammar rule options (serialized lines) = .ok parsed → Everywhere q parsed)
    (hlines : ∀ line ∈ lines, Everywhere before line)
    (h : reread grammar rule options lines = .ok line) : Everywhere p line := by
  simp only [everywhere_iff_around_none] at hparse hread hlines ⊢
  refine around_of_reread hp.around hbefore hback (fun _ _ _ => rfl) hparse hread
    (fun x hx => ?_) h
  obtain ⟨line, hline, hx⟩ := mem_of_mem_setAside hx
  exact around_iff_forall_mem.mp (hlines line hline) x hx

end Pass

end

end Manuscript
