import Manuscript.Proofs.Markup.Spelling

namespace Manuscript

open Glyph Reader

theorem isWordChar_reservedChar : Text.isWordChar reservedChar = false := by
  decide +kernel

theorem ne_reservedChar_of_isWordChar {c : Char} (h : Text.isWordChar c) : c ≠ reservedChar := by
  rintro rfl
  rw [isWordChar_reservedChar] at h
  cases h

theorem plain_of_chars {p : Char → Bool} {t : List Glyph} (h : ∀ g ∈ t, ∃ c, g = .char c ∧ p c)
    (hp : p reservedChar = false) : Plain t := by
  intro g hg
  obtain ⟨c, rfl, hc⟩ := h g hg
  refine ⟨c, rfl, fun he => ?_⟩
  rw [he, hp] at hc
  cases hc

theorem plain_of_repeats {α : Type} {Q : α → Prop} {t : List Glyph} {as : List α}
    (h : Repeats (fun t a => Plain t ∧ Q a) t as) : Plain t ∧ ∀ a ∈ as, Q a := by
  induction h with
  | nil => exact ⟨plain_nil, fun a ha => absurd ha List.not_mem_nil⟩
  | cons ha _ ih =>
    exact ⟨plain_append.mpr ⟨ha.1, ih.1⟩, List.forall_mem_cons.mpr ⟨ha.2, ih.2⟩⟩

theorem yields_plainOf {p : Char → Bool} (hp : p reservedChar = false) :
    (someOf p).Yields fun t a => t = a ∧ Plain a :=
  Yields.someOf.mono fun _ _ ⟨_, he, h⟩ => ⟨he, plain_of_chars h hp⟩

theorem yields_somePlain {stop : List Glyph → Bool} (h : Guarded stop) :
    (someUpTo stop).Yields fun t a => t = a ∧ Plain a :=
  (Yields.someUpTo (.plainUpTo h)).mono fun _ _ => And.right

theorem yields_spaces : spaces.Yields fun t a => t = a ∧ Plain a :=
  .plainUpTo (guarded_someOf (by decide))

namespace Construct

variable {keep : Macro.Keep} {options : Options}

theorem yields_triplePlus : triplePlus.Yields Verbatim := by
  refine (Yields.literal _).bind fun o _ ho => ?_
  refine (Yields.plainUpTo fun g h => by simp [h]).bind fun t inner ⟨ht, hp⟩ => ?_
  refine (Yields.literal _).bind fun c _ hc => .pure ?_
  rw [ho, ht, hc, List.append_nil]
  exact .passthrough .triplePlus hp

theorem yields_singlePlus : singlePlus.Yields Verbatim := by
  refine (Yields.literal _).bind fun o _ ho => ?_
  refine (Yields.ahead rfl).bind fun a _ (ha : a = []) => ?_
  refine (yields_somePlain fun g h => by simp [h]).bind fun t inner ⟨ht, hp⟩ => ?_
  refine (Yields.literal _).bind fun c _ hc => ?_
  refine (Yields.ahead rfl).bind fun b _ (hb : b = []) => .pure ?_
  rw [ho, ha, ht, hc, hb, List.append_nil, List.append_nil]
  exact .passthrough .singlePlus hp

theorem yields_bracketed : bracketed.Yields Verbatim := by
  refine (Yields.literal _).bind fun o _ ho => ?_
  refine (Yields.plainUpTo fun g h => by simp [h]).bind fun t inner ⟨ht, hp⟩ => ?_
  refine (Yields.literal _).bind fun c _ hc => .pure ?_
  rw [ho, ht, hc, List.append_nil]
  exact .passthrough .bracketed hp

theorem yields_passthrough : passthrough.Yields Verbatim := by
  refine .firstOf fun r hr => ?_
  simp only [List.mem_cons, List.not_mem_nil, or_false] at hr
  rcases hr with rfl | rfl | rfl
  · exact yields_triplePlus
  · exact yields_singlePlus
  · exact yields_bracketed

theorem yields_calloutMark :
    calloutMark.Yields fun t digits =>
      t = spell "<" ++ (digits.map .char ++ spell ">") ∧ digits ≠ [] ∧ ∀ d ∈ digits, d.isDigit := by
  refine (Yields.literal _).bind fun o _ ho => ?_
  refine Yields.someOf.bind fun t digits ⟨hne, ht, hd⟩ => ?_
  refine (Yields.literal _).bind fun c _ hc => .pure ?_
  have hplain : Plain digits := plain_of_chars hd (by decide)
  obtain ⟨ds, rfl, -⟩ := exists_chars_of_plain hplain
  rw [ho, ht, hc, List.append_nil, flatMap_chars_map_char]
  refine ⟨rfl, fun he => hne (congrArg _ he), fun d hmem => ?_⟩
  obtain ⟨c, he, hdigit⟩ := hd (.char d) (List.mem_map_of_mem hmem)
  rwa [Glyph.char.inj he]

theorem yields_callout : callout.Yields fun t x => Spells keep options t [x] := by
  refine (yields_calloutMark.bind fun t digits hd => ?_).bind fun t digits
    (ht : t = spell "<" ++ (digits.map .char ++ spell ">") ∧ digits ≠ [] ∧
      ∀ d ∈ digits, d.isDigit) => .pure ?_
  · refine (Yields.ahead rfl).bind fun a _ (ha : a = []) => .pure ?_
    rw [ha, List.append_nil, List.append_nil]
    exact hd
  · obtain ⟨rfl, hne, hdigits⟩ := ht
    rw [List.append_nil]
    exact .callout hne hdigits

theorem yields_crossReference : crossReference.Yields fun t x => Spells keep options t [x] := by
  refine (Yields.literal _).bind fun o _ ho => ?_
  refine (yields_somePlain fun g h => by simp [h]).bind fun t id ⟨ht, hid⟩ => ?_
  have hlabel : Yields (Reader.optional do
      literal ","
      let _ ← spaces
      someUpTo fun glyphs => startsWith ">>".toList glyphs || atReserved glyphs)
      fun t label => ∃ gap, Plain gap ∧ (∀ l ∈ label, Plain l) ∧
        t = preceded "," (label.map (gap ++ ·)) := by
    refine .optional ?_ ⟨[], plain_nil, by simp, rfl⟩
    refine (Yields.literal _).bind fun s _ hs => ?_
    refine yields_spaces.bind fun u gap ⟨hu, hgap⟩ => ?_
    refine (yields_somePlain fun g h => by simp [h]).mono fun v label ⟨hv, hl⟩ => ?_
    refine ⟨gap, hgap, by simpa using hl, ?_⟩
    rw [hs, hu, hv]
    rfl
  refine hlabel.bind fun u label ⟨gap, hgap, hl, hu⟩ => ?_
  refine (Yields.literal _).bind fun c _ hc => .pure ?_
  rw [ho, ht, hu, hc, List.append_nil]
  exact .crossReference hid hgap hl

theorem yields_specialChar : specialChar.Yields Verbatim := by
  refine .firstOf (List.forall_mem_map.mpr fun name hname => ?_)
  refine (Yields.literal _).bind fun t _ ht => .pure ?_
  rw [ht, List.append_nil]
  have hplain : ∀ name ∈ ["<", ">", "&"], reservedChar ∉ name.toList := by decide
  exact .special (hplain name hname)

theorem yields_special : special.Yields fun t x => Spells keep options t [x] :=
  yields_crossReference.orElse (yields_specialChar.mono fun _ _ => .of_verbatim)

theorem yields_attributeName :
    attributeName.Yields fun t name => Plain t ∧ name = textOf t := by
  refine (Yields.ahead rfl).bind fun a _ (ha : a = []) => ?_
  refine (yields_plainOf (by decide)).bind fun t name ⟨ht, hp⟩ => .pure ?_
  rw [ha, ht, List.append_nil, List.nil_append]
  exact ⟨hp, rfl⟩

theorem yields_attributeReference :
    attributeReference.Yields fun t x => Spells keep options t [x] := by
  refine (Yields.literal _).bind fun o _ ho => ?_
  refine yields_attributeName.bind fun t name ⟨hp, hname⟩ => ?_
  refine (Yields.literal _).bind fun c _ hc => .pure ?_
  rw [ho, hc, hname, List.append_nil]
  exact .attributeReference hp

theorem yields_escapedReference :
    escapedReference.Yields fun t x => Spells keep options t [x] := by
  refine (Yields.literal _).bind fun o _ ho => ?_
  refine yields_attributeName.bind fun t name ⟨hp, hname⟩ => ?_
  refine (Yields.literal _).bind fun c _ hc => .pure ?_
  have hbrace : Plain (spell "\x7b" ++ (t ++ spell "\x7d")) :=
    plain_append.mpr ⟨plain_spell.mpr (by decide), plain_append.mpr ⟨hp, plain_spell.mpr (by decide)⟩⟩
  have htext : textOf (spell "\x7b" ++ (t ++ spell "\x7d")) = literalReference name := by
    rw [hname]
    simp [textOf, literalReference, spell, chars, ← String.toList_inj]
  have hsplit : spell "\\\x7b" = spell "\\" ++ spell "\x7b" := rfl
  rw [ho, hc, List.append_nil, ← htext, hsplit, List.append_assoc]
  exact .escaped hbrace

theorem yields_counter : counter.Yields fun t x => Spells keep options t [x] := by
  refine (Yields.literal _).bind fun o _ ho => ?_
  have hkind : Yields (Reader.orElse (do literal "counter2"; return true)
      (do literal "counter"; return false))
      fun t hidden => t = spell (if hidden then "counter2" else "counter") := by
    refine Yields.orElse ?_ ?_
    all_goals
      refine (Yields.literal _).bind fun t _ ht => .pure ?_
      rw [ht, List.append_nil]
      rfl
  refine hkind.bind fun k hidden hk => ?_
  refine (Yields.literal _).bind fun s _ hs => ?_
  refine yields_attributeName.bind fun t name ⟨hp, hname⟩ => ?_
  have hstart : Yields (Reader.optional do
      literal ":"
      someUpTo fun glyphs =>
        atReserved glyphs || headIs (fun c => c == '\x7d' || Cause.isNewline c) glyphs)
      fun t start => (∀ s ∈ start, Plain s) ∧ t = preceded ":" start := by
    refine .optional ?_ ⟨by simp, rfl⟩
    refine (Yields.literal _).bind fun s _ hs => ?_
    refine (yields_somePlain fun g h => by simp [h]).mono fun v start ⟨hv, hl⟩ => ?_
    rw [hs, hv]
    exact ⟨by simpa using hl, rfl⟩
  refine hstart.bind fun u start ⟨hplain, hu⟩ => ?_
  refine (Yields.literal _).bind fun c _ hc => .pure ?_
  rw [ho, hk, hs, hname, hu, hc, List.append_nil]
  exact .counter hidden hp hplain

theorem yields_attributeOrCounter :
    attributeOrCounter.Yields fun t x => Spells keep options t [x] := by
  refine .firstOf fun r hr => ?_
  simp only [List.mem_cons, List.not_mem_nil, or_false] at hr
  rcases hr with rfl | rfl | rfl
  · exact yields_escapedReference
  · exact yields_counter
  · exact yields_attributeReference

theorem yields_symbol : symbol.Yields Verbatim := by
  refine .firstOf (List.forall_mem_map.mpr fun name hname => ?_)
  refine (Yields.literal _).bind fun t _ ht => .pure ?_
  rw [ht, List.append_nil]
  have hplain : ∀ name ∈ ["(C)", "(TM)", "(R)", "..."], reservedChar ∉ name.toList := by decide
  exact .symbol (hplain name hname)

theorem yields_emDash : emDash.Yields Verbatim := by
  refine (Yields.literal _).bind fun t _ ht => ?_
  refine (Yields.ahead rfl).bind fun a _ (ha : a = []) => .pure ?_
  rw [ht, ha, List.append_nil, List.append_nil]
  exact .symbol (by decide)

theorem yields_hyphenRun : hyphenRun.Yields Verbatim := by
  refine (Yields.ahead rfl).bind fun a _ (ha : a = []) => ?_
  refine (yields_plainOf (by decide)).bind fun t run ⟨ht, hp⟩ => .pure ?_
  rw [ha, ht, List.append_nil, List.nil_append]
  exact .text hp

theorem verbatim_char {c : Char} (hc : c ≠ reservedChar) :
    Verbatim [.char c] (.text (String.singleton c)) := by
  have hplain : Plain [.char c] := plain_cons.mpr ⟨⟨c, rfl, hc⟩, plain_nil⟩
  have htext : textOf [.char c] = String.singleton c := by simp [textOf, chars]
  exact htext ▸ .text hplain

theorem verbatim_contractionElement {g : Glyph} {after : List Glyph}
    (h : continuesContraction (g :: after)) : Verbatim [g] (contractionElement g) := by
  cases g with
  | token digits => cases h
  | char c =>
    rw [continuesContraction, Bool.or_eq_true, Bool.and_eq_true] at h
    have hc : c ≠ reservedChar := by
      rcases h with hword | ⟨hmark, -⟩
      · exact ne_reservedChar_of_isWordChar hword
      · rintro rfl
        exact absurd hmark (by decide)
    rw [contractionElement]
    split
    · have hspell : [Glyph.char c] = spell (String.singleton c) := by simp [spell]
      rw [hspell]
      exact .symbol (by simpa using hc.symm)
    · exact verbatim_char hc

theorem repeats_map {f : Glyph → Element} {t : List Glyph} (h : ∀ g ∈ t, Verbatim [g] (f g)) :
    Repeats Verbatim t (t.map f) := by
  induction t with
  | nil => exact .nil
  | cons g t ih =>
    obtain ⟨hg, ht⟩ := List.forall_mem_cons.mp h
    exact .cons hg (ih ht)

theorem yields_contraction : contraction.Yields (Repeats Verbatim) := by
  refine (Yields.ahead rfl).bind fun a _ (ha : a = []) => ?_
  refine (Yields.someUpTo (.upTo _)).bind fun t word ⟨_, ht, hword⟩ => .pure ?_
  rw [ha, ht, List.append_nil, List.nil_append]
  refine repeats_map fun g hg => ?_
  obtain ⟨after, hafter⟩ := hword g hg
  exact verbatim_contractionElement (by simpa using hafter)

theorem yields_single {R : List Glyph → List Element → Prop} {r : Reader Element}
    (h : r.Yields fun t x => R t [x]) : (single r).Yields R :=
  h.bind fun t x hx => .pure (by rwa [List.append_nil])

theorem repeats_single {r : Reader Element} {Q : List Glyph → Element → Prop} (h : r.Yields Q) :
    (single r).Yields (Repeats Q) :=
  h.bind fun t x hx => .pure (by rw [List.append_nil]; exact .singleton hx)

theorem yields_replacement : replacement.Yields (Repeats Verbatim) := by
  refine .orElse (repeats_single (.firstOf fun r hr => ?_)) yields_contraction
  simp only [List.mem_cons, List.not_mem_nil, or_false] at hr
  rcases hr with rfl | rfl | rfl
  · exact yields_symbol
  · exact yields_emDash
  · exact yields_hyphenRun

theorem yields_lineBreak : lineBreak.Yields Verbatim := by
  refine (Yields.literal _).bind fun t _ ht => ?_
  refine (Yields.ahead rfl).bind fun a _ (ha : a = []) => .pure ?_
  rw [ht, ha, List.append_nil, List.append_nil]
  exact .lineBreak

section Elements

-- What is read has a property, whatever was taken for it.
variable {P : Element → Prop}

theorem yields_passthrough_of (h : ∀ shield t, P (shielded shield t)) :
    passthrough.Yields fun _ x => P x := by
  refine .firstOf fun r hr => ?_
  simp only [List.mem_cons, List.not_mem_nil, or_false] at hr
  rcases hr with rfl | rfl | rfl
  · exact .after fun _ => .after fun _ => .after fun _ => .pure (h ..)
  · exact .after fun _ => .after fun _ => .after fun _ => .after fun _ => .after fun _ =>
      .pure (h ..)
  · exact .after fun _ => .after fun _ => .after fun _ => .pure (h ..)

theorem yields_callout_of (h : ∀ n, P (.callout n)) : callout.Yields fun _ x => P x :=
  .after fun _ => .pure (h _)

theorem yields_crossReference_of (h : ∀ id label, P (.crossReference id label)) :
    crossReference.Yields fun _ x => P x :=
  .after fun _ => .after fun _ => .after fun _ => .after fun _ => .pure (h ..)

theorem yields_special_of (hcross : ∀ id label, P (.crossReference id label))
    (hchar : ∀ name ∈ ["<", ">", "&"], P (.special name)) : special.Yields fun _ x => P x := by
  refine (yields_crossReference_of hcross).orElse (.firstOf (List.forall_mem_map.mpr ?_))
  exact fun name hname => .after fun _ => .pure (hchar name hname)

theorem yields_attributeOrCounter_of (hescaped : ∀ name, P (.text (literalReference name)))
    (hcounter : ∀ use, P (.counter use)) (hreference : ∀ name, P (.attributeReference name)) :
    attributeOrCounter.Yields fun _ x => P x := by
  refine .firstOf fun r hr => ?_
  simp only [List.mem_cons, List.not_mem_nil, or_false] at hr
  rcases hr with rfl | rfl | rfl
  · exact .after fun _ => .after fun _ => .after fun _ => .pure (hescaped _)
  · exact .after fun _ => .after fun _ => .after fun _ => .after fun _ => .after fun _ =>
      .after fun _ => .pure (hcounter _)
  · exact .after fun _ => .after fun _ => .after fun _ => .pure (hreference _)

theorem yields_lineBreak_of (h : P .lineBreak) : lineBreak.Yields fun _ x => P x :=
  .after fun _ => .after fun _ => .pure h

end Elements

end Construct

end Manuscript
