import Manuscript.Proofs.Escaping.Outline
import Manuscript.Proofs.Escaping.Reading
import Manuscript.Proofs.Resolution.Replay

namespace Manuscript

open Glyph Reader Pending

namespace Element

def Still : Element → Prop
  | .text s => Uncounted (s.toList.map some)
  | x => Event.ofElement? x = none

def Ready (x : Element) : Prop :=
  ∀ event, Event.ofElement? x = some event → ∃ name, event = .reference name ∧ Safe name

theorem Still.ofElement?_eq_none {x : Element} (h : x.Still) : Event.ofElement? x = none := by
  cases x <;> first | exact h | rfl

theorem Still.ready {x : Element} (h : x.Still) : x.Ready := by
  intro event hevent
  rw [h.ofElement?_eq_none] at hevent
  cases hevent

theorem outline_withChildren (x : Element) (sequences : List (List Element)) :
    (x.withChildren sequences).outline = x.outline := by
  fun_induction withChildren x sequences <;> simp_all [outline]

theorem ofElement?_withChildren (x : Element) (sequences : List (List Element)) :
    Event.ofElement? (x.withChildren sequences) = Event.ofElement? x := by
  fun_induction withChildren x sequences <;> simp_all [Event.ofElement?]

theorem still_withChildren (x : Element) (sequences : List (List Element)) :
    (x.withChildren sequences).Still ↔ x.Still := by
  fun_induction withChildren x sequences <;> simp_all [Still, Event.ofElement?]

end Element

theorem still_leaf {x : Element} (h : x.Still) (hchildren : x.children = []) (hheld : x.held = []) :
    x.Throughout Element.Still :=
  (throughout_of_leaf hchildren hheld).mpr h

theorem ready_leaf {x : Element} (h : Event.ofElement? x = none) (hchildren : x.children = [])
    (hheld : x.held = []) : Everywhere Element.Ready [x] := by
  refine everywhere_leaf (fun event hevent => ?_) hchildren hheld
  rw [h] at hevent
  cases hevent

theorem still_of_uncounted {xs : List Element} (h : Uncounted (outline xs))
    (hparts : ∀ x ∈ xs, x.isText = false → x.Throughout Element.Still) :
    Everywhere Element.Still xs := by
  refine everywhere_iff.mpr fun x hx => ?_
  cases htext : x.isText with
  | false => exact hparts x hx htext
  | true =>
    obtain ⟨s, rfl⟩ := eq_text_of_isText htext
    exact throughout_text.mpr (h.of_infix (infix_outline_of_mem hx))

theorem filter_merge (xs : List Element) :
    (merge xs).filter (!·.isText) = xs.filter (!·.isText) := by
  rw [← gather_untext, ← gather_untext, gather_merge fun _ => rfl]

theorem mem_of_mem_merge {x : Element} {xs : List Element} (h : x ∈ merge xs)
    (htext : x.isText = false) : x ∈ xs := by
  have hmem : x ∈ (merge xs).filter (!·.isText) := List.mem_filter.mpr ⟨h, by simp [htext]⟩
  rw [filter_merge] at hmem
  exact (List.mem_filter.mp hmem).1

structure Outlines (t : List Glyph) (xs : List Element) : Prop where
  blurs : Blurs (t.map char?) (outline xs)
  parts : Uncounted (t.map char?) → ∀ x ∈ xs, x.isText = false → x.Throughout Element.Still

namespace Outlines

variable {t u : List Glyph} {x : Element} {xs ys : List Element}

theorem uncounted (h : Outlines t xs) (ht : Uncounted (t.map char?)) : Uncounted (outline xs) :=
  ht.of_blurs h.blurs

theorem still (h : Outlines t xs) (ht : Uncounted (t.map char?)) : Everywhere Element.Still xs :=
  still_of_uncounted (h.uncounted ht) (h.parts ht)

theorem gap (htext : x.isText = false)
    (hx : Uncounted (t.map char?) → x.Throughout Element.Still) : Outlines t [x] where
  blurs := by
    rw [outline_singleton, Element.outline_of_not_isText htext]
    exact .gap _
  parts ht := List.forall_mem_singleton.mpr fun _ => hx ht

theorem append (ht : Outlines t xs) (hu : Outlines u ys) : Outlines (t ++ u) (xs ++ ys) where
  blurs := by
    rw [List.map_append, outline_append]
    exact ht.blurs.append hu.blurs
  parts h := by
    rw [List.map_append] at h
    exact List.forall_mem_append.mpr ⟨ht.parts (h.of_infix (List.prefix_append _ _).isInfix),
      hu.parts (h.of_infix (List.suffix_append _ _).isInfix)⟩

theorem merged (h : Outlines t xs) : Outlines t (merge xs) where
  blurs := by
    rw [outline_merge]
    exact h.blurs
  parts ht x hx htext := h.parts ht x (mem_of_mem_merge hx htext) htext

theorem of_text {s : String} (h : Blurs (t.map char?) (outline [.text s])) :
    Outlines t [.text s] where
  blurs := h
  parts _ := List.forall_mem_singleton.mpr fun htext => by cases htext

theorem text (h : Plain t) : Outlines t [.text (textOf t)] :=
  .of_text (by rw [outline_textOf h]; exact .refl _)

theorem glyph (g : Glyph) : Outlines [g] [g.element] := by
  cases g with
  | char c => exact .of_text (outline_glyph (.char c) ▸ .refl _)
  | token digits => exact .gap rfl fun _ => still_leaf rfl rfl rfl

theorem escaped {mark : String} (h : mark ∈ Quote.escapable) :
    Outlines (spell "\\" ++ spell mark) [.text mark] := by
  refine .of_text ?_
  simp only [Quote.escapable, List.mem_cons, List.not_mem_nil, or_false] at h
  rcases h with rfl | rfl | rfl | rfl | rfl | rfl | rfl | rfl | rfl | rfl <;>
    exact .bare (by decide) (.refl _)

theorem wrapped {o c : List Glyph} (wrapper : Wrapper) (h : Outlines t xs) :
    Outlines (o ++ (t ++ c)) [wrapper.wrap xs] := by
  refine .gap (by cases wrapper <;> rfl) fun hcount => ?_
  have hinner : t.map char? <:+: (o ++ (t ++ c)).map char? :=
    List.IsInfix.map char? ⟨o, c, by rw [List.append_assoc]⟩
  have hstill := h.still (hcount.of_infix hinner)
  cases wrapper with
  | quoted style roles =>
    refine ⟨rfl, List.forall_mem_cons.mpr ⟨hstill, ?_⟩, fun _ => nofun⟩
    rw [sequencesOf_roleAttributes]
    exact fun _ => nofun
  | quotation mark => exact ⟨rfl, List.forall_mem_singleton.mpr hstill, fun _ => nofun⟩

theorem quotable : Quotable Outlines where
  nil := ⟨.nil, fun _ _ => nofun⟩
  append := append
  merged := merged
  glyph := glyph
  text := text
  escaped := escaped
  wrapped wrapper _ _ _ h _ := wrapped wrapper h

theorem shielded (shield : Shield) (h : Plain t) :
    Outlines (spell shield.opening ++ (t ++ spell shield.closing))
      [Construct.shielded shield t] := by
  refine .gap rfl fun hcount => ⟨rfl, List.forall_mem_singleton.mpr ?_, fun _ => nofun⟩
  refine everywhere_fragment ?_
  have hinner : t.map char? <:+:
      (spell shield.opening ++ (t ++ spell shield.closing)).map char? :=
    List.IsInfix.map char? ⟨_, _, by rw [List.append_assoc]⟩
  have htext := hcount.of_infix hinner
  rwa [← outline_textOf h, outline_singleton] at htext

theorem of_verbatim (h : Verbatim t x) : Outlines t [x] := by
  cases h with
  | text h => exact .text h
  | passthrough shield h => exact .shielded shield h
  | special | symbol | lineBreak => exact .gap rfl fun _ => still_leaf rfl rfl rfl

theorem special : Construct.special.Yields fun t x => Outlines t [x] := by
  have hcross : Construct.crossReference.Yields fun _ x =>
      x.isText = false ∧ x.Throughout Element.Still :=
    Construct.yields_crossReference_of fun _ _ => ⟨rfl, still_leaf rfl rfl rfl⟩
  exact .orElse (hcross.mono fun _ _ ⟨htext, hx⟩ => .gap htext fun _ => hx)
    (Construct.yields_specialChar.mono fun _ _ => .of_verbatim)

end Outlines

theorem textual_ready : Textual Element.Ready where
  merge := everywhere_merge (fun _ _ => iff_of_true nofun ⟨nofun, nofun⟩) nofun
  quoted _ _ := nofun
  quotation _ _ := nofun
  blankLine := nofun

def Rule.early : List Rule := [.passthroughs, .specials, .quotes]

namespace Fragment

variable {rule : Rule} {options : Options} {text : String} {parsed : List Element}

theorem outlines_construct (hrule : rule ∈ Rule.early) :
    (construct options rule).Yields Outlines := by
  simp only [Rule.early, List.mem_cons, List.not_mem_nil, or_false] at hrule
  rcases hrule with rfl | rfl | rfl
  · exact Construct.yields_single (Construct.yields_passthrough.mono fun _ _ => .of_verbatim)
  · exact Construct.yields_single Outlines.special
  · exact Construct.yields_single (Quote.yields_quote Outlines.quotable)

theorem outlines_parse (hrule : rule ∈ Rule.early) (h : parse rule options text = .ok parsed) :
    Outlines (scan text.toList) parsed := by
  have hne : rule ≠ .attribution := ne_of_mem_of_not_mem hrule (by decide)
  rw [parse_eq_ok hne h]
  exact .merged (relates_read Outlines.quotable.nil (fun _ _ _ _ => .append) .glyph
    (fun _ => .text) (outlines_construct hrule) _)

theorem blurs_scan (cs : List Char) : Blurs (cs.map some) ((scan cs).map char?) := by
  fun_induction scan cs with
  | case1 => exact .nil
  | case2 cs digits rest h ih =>
    rw [append_of_tokenRest? h]
    simpa [char?] using Blurs.hide ((reservedChar :: digits ++ [reservedChar]).map some) ih
  | case3 cs _ ih => exact .keep _ ih
  | case4 c cs _ ih => exact .keep c ih

theorem ready_attributeName : Construct.attributeName.Yields fun _ name => Safe name :=
  .after fun _ => Yields.someOf.bind fun _ _ ⟨_, _, hchars⟩ =>
    .pure (safe_textOf_of_chars hchars (by decide))

theorem uncounted_counter :
    Construct.counter.Yields fun t _ => ¬ Uncounted (t.map char?) := by
  have hkind : Yields (Reader.orElse (do literal "counter2"; return true)
      (do literal "counter"; return false)) fun t _ => spell "counter" <+: t := by
    refine .orElse ?_ ?_
    · exact (Yields.literal _).bind fun t _ ht => .pure ⟨spell "2", by rw [ht]; rfl⟩
    · exact (Yields.literal _).bind fun t _ ht => .pure ⟨[], by rw [ht]⟩
  refine (Yields.literal _).bind fun o _ ho => hkind.bind fun t _ ⟨u, ht⟩ => ?_
  refine (yields_true _).mono fun v _ _ hcount => hcount ?_
  rw [ho, ← ht]
  exact ⟨[], (u ++ v).map char?, by simp [spell, char?]; rfl⟩

theorem ready_attributeOrCounter : Construct.attributeOrCounter.Yields fun t x =>
    Uncounted (t.map char?) → Everywhere Element.Ready [x] := by
  have hescaped : Construct.escapedReference.Yields fun _ x => Everywhere Element.Ready [x] :=
    .after fun _ => .after fun _ => .after fun _ => .pure (ready_leaf rfl rfl rfl)
  have hreference : Construct.attributeReference.Yields fun _ x =>
      Everywhere Element.Ready [x] := by
    refine .after fun _ => Yields.bind ready_attributeName fun _ name hname => ?_
    refine .after fun _ => .pure (everywhere_leaf (fun event h => ?_) rfl rfl)
    cases h
    exact ⟨name, rfl, hname⟩
  refine .firstOf fun r hr => ?_
  simp only [List.mem_cons, List.not_mem_nil, or_false] at hr
  rcases hr with rfl | rfl | rfl
  · exact hescaped.mono fun _ _ h _ => h
  · exact uncounted_counter.mono fun _ _ h hcount => absurd hcount h
  · exact hreference.mono fun _ _ h _ => h

theorem ready_read {glyphs : List Glyph} (h : Uncounted (glyphs.map char?)) :
    Everywhere Element.Ready (read (construct options .attributes) glyphs) := by
  refine @relates_read (fun t xs => Uncounted (t.map char?) → Everywhere Element.Ready xs)
    (fun _ => everywhere_nil) (fun t u xs ys ht hu h => ?_) (fun g _ => ?_)
    (fun _ _ _ => ready_leaf rfl rfl rfl) _ (Construct.yields_single ready_attributeOrCounter)
    glyphs h
  · rw [List.map_append] at h
    exact everywhere_append.mpr ⟨ht (h.of_infix (List.prefix_append _ _).isInfix),
      hu (h.of_infix (List.suffix_append _ _).isInfix)⟩
  · cases g <;> exact ready_leaf rfl rfl rfl

theorem ready_parse {text : String} (htext : Uncounted ((scan text.toList).map char?))
    (h : parse .attributes options text = .ok parsed) : Everywhere Element.Ready parsed := by
  rw [parse_eq_ok (by decide) h, textual_ready.merge]
  exact ready_read htext

end Fragment

structure Quiet (line : Line) : Prop where
  uncounted : Uncounted (outline line)
  still : Everywhere Element.Still line

theorem map_char?_lineGlyphs (k : Nat) (line : Line) :
    (lineGlyphs k line).map char? = outline line := by
  fun_induction lineGlyphs k line with
  | case1 => rfl
  | case2 k s rest ih => simp [ih, outline_cons, Element.outline, char?]
  | case3 k x rest hne ih =>
    rw [List.map_cons, ih, outline_cons, Element.outline_of_not_isText (not_isText_of_ne hne)]
    rfl

theorem uncounted_linesGlyphs {lines : List Line} (h : ∀ line ∈ lines, Uncounted (outline line))
    (k : Nat) : Uncounted ((linesGlyphs k lines).map char?) := by
  fun_induction linesGlyphs k lines with
  | case1 => exact uncounted_nil
  | case2 k line =>
    rw [map_char?_lineGlyphs]
    exact h line List.mem_cons_self
  | case3 k line rest _ ih =>
    obtain ⟨hline, hrest⟩ := List.forall_mem_cons.mp h
    rw [List.map_append, map_char?_lineGlyphs, List.map_cons]
    exact uncounted_separated hline (ih hrest)

theorem outline_putBack {original : UInt32 → Element}
    (h : ∀ reference, (original reference).isText = false) (elements : List Element) :
    outline (putBack original elements) = outline elements := by
  rw [putBack, substituted_eq, id, outline, outline, List.flatMap_map]
  refine List.flatMap_congr fun x _ => ?_
  cases hplaceholder : placeholder? x with
  | none => exact Element.outline_withChildren x _
  | some reference =>
    rw [Element.outline_of_not_isText (h reference)]
    cases x <;> first | rfl | cases hplaceholder

namespace Pass

variable {rule : Rule} {options : Options} {lines : List Line} {line : Line}

theorem uncounted_serialized (hlines : ∀ line ∈ lines, Unforged line)
    (hquiet : ∀ line ∈ lines, Quiet line) :
    Uncounted ((scan (serialized lines).toList).map char?) := by
  rw [scan_serialized hlines]
  exact uncounted_linesGlyphs (fun line hline => (hquiet line hline).uncounted) 0

theorem quiet_of_reread (hrule : rule ∈ Rule.early) (hlines : ∀ line ∈ lines, Unforged line)
    (hquiet : ∀ line ∈ lines, Quiet line)
    (hfixed : ∀ x ∈ setAside lines, parsePayload (Fragment.parse rule options) x = .ok x)
    (h : reread Fragment.parse rule options lines = .ok line) : Quiet line := by
  obtain ⟨payloads, hpayloads⟩ := exists_payloads_of_reread h
  obtain ⟨parsed, hparsed⟩ := exists_parsed_of_reread h hpayloads
  obtain rfl := eq_of_reread h hpayloads hparsed
  have hcount := uncounted_serialized hlines hquiet
  have houtlines := Fragment.outlines_parse hrule hparsed
  -- What is set aside comes back as it was, so counters can only be in what is read.
  have haside : ∀ x ∈ setAside lines, x.isText = false ∧ x.Throughout Element.Still := by
    intro x hx
    obtain ⟨line, hline, hmem⟩ := mem_of_mem_setAside hx
    exact ⟨by simpa using (List.mem_filter.mp hx).2,
      everywhere_iff.mp (hquiet line hline).still x hmem⟩
  have hpayload : ∀ x ∈ payloads, x.isText = false ∧ x.Throughout Element.Still := by
    refine forall_of_mapM_ok (fun x payload ⟨hx, hstill⟩ hpayload => ?_) hpayloads
      fun x hx => And.intro (hfixed x hx) (haside x hx)
    rw [hx] at hpayload
    exact Except.ok.inj hpayload ▸ hstill
  have horiginal : ∀ reference, ((handedOut payloads).original reference).isText = false ∧
      ((handedOut payloads).original reference).Throughout Element.Still := by
    intro reference
    rcases original_handedOut_cases payloads reference with hmem | hnone
    · exact hpayload _ hmem
    · rw [hnone]
      exact ⟨rfl, still_leaf rfl rfl rfl⟩
  have hstill := (houtlines.still hcount).and (Fragment.inline_parse hparsed)
  have hback : Everywhere Element.Still (putBack (handedOut payloads).original parsed) := by
    rw [everywhere_iff_around_none] at hstill ⊢
    refine around_putBack (q := fun x => x.Still ∧ x.Inline) (fun x hx _ => ?_)
      (fun _ _ _ => rfl) (fun n => ?_) hstill
    · exact ⟨hx.2, fun sequences => (Element.still_withChildren x sequences).mpr hx.1⟩
    · exact everywhere_iff_around_none.mp (everywhere_singleton.mpr (horiginal n).2)
  -- Put back, every element is a gap again, so no counter is written across one.
  have huncounted : Uncounted (outline (merge (putBack (handedOut payloads).original parsed))) := by
    rw [outline_merge, outline_putBack fun reference => (horiginal reference).1]
    exact houtlines.uncounted hcount
  refine ⟨huncounted, still_of_uncounted huncounted fun x hx htext => ?_⟩
  exact everywhere_iff.mp hback x (mem_of_mem_merge hx htext)

theorem ready_of_reread (hlines : ∀ line ∈ lines, Unforged line)
    (hquiet : ∀ line ∈ lines, Quiet line)
    (h : reread Fragment.parse .attributes options lines = .ok line) :
    Everywhere Element.Ready line := by
  refine everywhere_of_reread (q := fun x => x.Ready ∧ x.Inline) textual_ready
    (fun _ => Element.Still.ready) (fun x ⟨hx, hheld⟩ _ => ⟨hheld, fun sequences => ?_⟩)
    (fun s parsed hs => Fragment.ready_parse (hs.of_blurs (Fragment.blurs_scan _)))
    (fun parsed hparsed => ?_) (fun line hline => (hquiet line hline).still) h
  · rwa [Element.Ready, Element.ofElement?_withChildren]
  · exact (Fragment.ready_parse (uncounted_serialized hlines hquiet) hparsed).and
      (Fragment.inline_parse hparsed)

end Pass

end Manuscript
