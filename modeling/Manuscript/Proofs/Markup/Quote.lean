import Manuscript.Proofs.Markup.Construct

namespace Manuscript

open Glyph Reader

namespace Quote

variable {R : List Glyph → List Element → Prop}

theorem isRoleChar_reservedChar : isRoleChar reservedChar = false := by
  rw [isRoleChar, isWordChar_reservedChar]
  decide

theorem yields_escapedMark (h : Quotable R) : escapedMark.Yields fun t x => R t [x] := by
  refine (Yields.literal _).bind fun o _ ho => ?_
  have hmark : (firstOf (escapable.map fun mark => do literal mark; return mark)).Yields
      fun t mark => t = spell mark ∧ mark ∈ escapable := by
    refine .firstOf (List.forall_mem_map.mpr fun mark hmem => ?_)
    refine (Yields.literal _).bind fun t _ ht => .pure ?_
    rw [ht, List.append_nil]
    exact ⟨rfl, hmem⟩
  refine hmark.bind fun t mark ⟨ht, hmem⟩ => .pure ?_
  rw [ho, ht, List.append_nil]
  exact h.escaped hmem

theorem yields_role : role.Yields fun t role => Plain t ∧ IsRole role := by
  refine Yields.someOf.bind fun t chars ⟨_, ht, hchars⟩ => .pure ?_
  have hplain : Plain chars := plain_of_chars hchars isRoleChar_reservedChar
  obtain ⟨cs, rfl, -⟩ := exists_chars_of_plain hplain
  rw [ht, List.append_nil, textOf_map_char]
  refine ⟨hplain, fun c hc => ?_⟩
  rw [String.toList_ofList] at hc
  obtain ⟨d, hd, hrole⟩ := hchars (.char c) (List.mem_map_of_mem hc)
  rwa [Glyph.char.inj hd]

theorem yields_roles : roles.Yields fun t roles => Plain t ∧ ∀ role ∈ roles, IsRole role := by
  refine (Yields.literal _).bind fun o _ ho => ?_
  have hdot : (Reader.optional (literal ".")).Yields fun t _ => Plain t :=
    .optional ((Yields.literal _).mono fun t _ ht => ht ▸ plain_spell.mpr (by decide)) plain_nil
  refine hdot.bind fun d _ hd => ?_
  refine yields_role.bind fun t first ⟨ht, hfirst⟩ => ?_
  have hothers : (many (do literal "."; role)).Yields fun t roles =>
      Plain t ∧ ∀ role ∈ roles, IsRole role := by
    refine (Yields.many ?_).mono fun _ _ => plain_of_repeats
    refine (Yields.literal _).bind fun s _ hs => yields_role.mono fun u _ ⟨hu, hrole⟩ => ?_
    exact ⟨plain_append.mpr ⟨hs ▸ plain_spell.mpr (by decide), hu⟩, hrole⟩
  refine hothers.bind fun u others ⟨hu, hall⟩ => ?_
  refine (Yields.literal _).bind fun c _ hc => ?_
  refine (Yields.ahead rfl).bind fun a _ (ha : a = []) => .pure ?_
  rw [ho, hc, ha, List.append_nil, List.append_nil]
  have hbrackets : Plain (spell "[") ∧ Plain (spell "]") :=
    ⟨plain_spell.mpr (by decide), plain_spell.mpr (by decide)⟩
  simp only [plain_append]
  exact ⟨⟨hbrackets.1, hd, ht, hu, hbrackets.2⟩, List.forall_mem_cons.mpr ⟨hfirst, hall⟩⟩

theorem yields_optionalRoles : (Reader.optional roles).Yields fun t roles =>
    Plain t ∧ ∀ role ∈ roles.getD [], IsRole role :=
  .optional yields_roles ⟨plain_nil, fun _ h => absurd h List.not_mem_nil⟩

theorem yields_script {style : Style} {mark : String} {c : Char}
    (hmark : reservedChar ∉ mark.toList) :
    (script style mark c).Yields fun t found => ∃ o inner, Plain o ∧ Plain inner ∧ inner ≠ [] ∧
      t = o ++ (inner ++ o) ∧ found.2 = textOf inner := by
  refine (Yields.literal _).bind fun o _ ho => ?_
  refine (Yields.someUpTo (.plainUpTo fun g h => by simp [h])).bind fun t inner ⟨hne, ht, hp⟩ => ?_
  refine (Yields.literal _).bind fun e _ he => .pure ?_
  rw [ho, ht, he, List.append_nil]
  exact ⟨spell mark, inner, plain_spell.mpr hmark, hp, hne, rfl, rfl⟩

theorem yields_scriptText (h : Quotable R) : scriptText.Yields fun t x => R t [x] := by
  refine yields_optionalRoles.bind fun r roles ⟨hr, hroles⟩ => ?_
  refine ((yields_script (by decide)).orElse (yields_script (by decide))).bind fun t found
    ⟨o, inner, ho, hp, hne, ht, htext⟩ => .pure ?_
  rw [ht, htext, List.append_nil, ← List.append_assoc]
  exact h.wrapped _ hroles (.text (textOf_ne_empty hne)) (plain_append.mpr ⟨hr, ho⟩) (h.text hp) ho

theorem yields_leaf (h : Quotable R) : leaf.Yields fun t x => R t [x] :=
  (yields_escapedMark h).orElse (yields_scriptText h)

def Marked (t : List Glyph) (o : Opening) : Prop :=
  Plain t ∧ Plain (spell o.closing) ∧ ∀ role ∈ o.wrapper.roles, IsRole role

theorem yields_quotationOpening {mark : QuoteMark} {o c : String} (ho : reservedChar ∉ o.toList)
    (hc : reservedChar ∉ c.toList) : (quotationOpening mark o c).Yields Marked := by
  refine (Yields.literal _).bind fun t _ ht => .pure ?_
  rw [ht, List.append_nil]
  exact ⟨plain_spell.mpr ho, plain_spell.mpr hc, fun _ h => absurd h List.not_mem_nil⟩

theorem plain_marks : ∀ entry ∈ marks, Plain (spell entry.2.1) := by
  intro entry hentry
  have hchars : ∀ entry ∈ marks, reservedChar ∉ entry.2.1.toList := by decide
  exact plain_spell.mpr (hchars entry hentry)

theorem yields_textOpening : textOpening.Yields Marked := by
  refine yields_optionalRoles.bind fun r roles ⟨hr, hroles⟩ => ?_
  refine .orElse (.firstOf (List.forall_mem_map.mpr fun entry hentry => ?_))
    (.firstOf (List.forall_mem_map.mpr fun entry hentry => ?_))
  · have hmark := plain_marks entry hentry
    have hmarks : Plain (spell (entry.2.1 ++ entry.2.1)) := by
      rw [spell_append]
      exact plain_append.mpr ⟨hmark, hmark⟩
    refine (Yields.literal _).bind fun t _ ht => .pure ?_
    rw [ht, List.append_nil]
    exact ⟨plain_append.mpr ⟨hr, hmarks⟩, hmarks, hroles⟩
  · have hmark := plain_marks entry hentry
    refine (Yields.literal _).bind fun t _ ht => ?_
    refine (Yields.ahead rfl).bind fun a _ (ha : a = []) => .pure ?_
    rw [ht, ha, List.append_nil, List.append_nil]
    exact ⟨plain_append.mpr ⟨hr, hmark⟩, hmark, hroles⟩

theorem yields_opening : opening.Yields Marked := by
  refine .firstOf fun r hr => ?_
  simp only [List.mem_cons, List.not_mem_nil, or_false] at hr
  rcases hr with rfl | rfl | rfl
  · exact yields_quotationOpening (by decide) (by decide)
  · exact yields_quotationOpening (by decide) (by decide)
  · exact yields_textOpening

theorem yields_closing (o : Opening) : (closing o).Yields fun t _ => t = spell o.closing := by
  refine (Yields.literal _).bind fun t _ ht => .ahead ?_
  rw [ht, List.append_nil]

def RelatesQuote (R : List Glyph → List Element → Prop) (glyphs : List Glyph) : Prop :=
  ∀ x rest, read? glyphs = some (x, rest) → ∃ taken, glyphs = taken ++ rest.left ∧ R taken [x]

def RelatesContent (R : List Glyph → List Element → Prop) (o : Opening) (glyphs : List Glyph) :
    Prop :=
  ∀ xs rest, content? o glyphs = some (xs, rest) →
    ∃ inner, glyphs = inner ++ (spell o.closing ++ rest.left) ∧ R inner xs

theorem relatesQuote_of_leaf (hR : Quotable R) {glyphs : List Glyph} {found : Element × Rest glyphs}
    (h : leaf.take? glyphs = some found) : RelatesQuote R glyphs := by
  intro x rest hr
  rw [read?, h] at hr
  obtain rfl := Option.some.inj hr
  exact (yields_leaf hR).of_take? h

theorem relatesQuote_of_content (hR : Quotable R) {glyphs : List Glyph}
    (hleaf : leaf.take? glyphs = none)
    {o : Opening} {inner : Rest glyphs} (hopen : opening.take? glyphs = some (o, inner))
    {x : Element} {xs : List Element} {left : Rest inner.left}
    (hcontent : content? o inner.left = some (x :: xs, left))
    (ih : RelatesContent R o inner.left) : RelatesQuote R glyphs := by
  intro y rest hr
  rw [read?, hleaf, hopen] at hr
  simp only [hcontent, Option.some.injEq, Prod.mk.injEq] at hr
  obtain ⟨rfl, rfl⟩ := hr
  obtain ⟨t, ht, hplain, hclosing, hroles⟩ := yields_opening.of_take? hopen
  obtain ⟨u, hu, hxs⟩ := ih _ _ hcontent
  refine ⟨t ++ (u ++ spell o.closing), ?_,
    hR.wrapped o.wrapper hroles (merged_merge _) hplain (hR.merged hxs) hclosing⟩
  rw [List.append_assoc, List.append_assoc]
  exact ht.trans (congrArg (t ++ ·) hu)

theorem relatesContent_of_closing (hR : Quotable R) {o : Opening} {glyphs : List Glyph} {left : Rest glyphs}
    (h : (closing o).take? glyphs = some ((), left)) : RelatesContent R o glyphs := by
  intro xs rest hr
  rw [content?.eq_def, h] at hr
  obtain ⟨rfl, rfl⟩ := Prod.mk.inj (Option.some.inj hr)
  obtain ⟨t, ht, rfl⟩ := (yields_closing o).of_take? h
  exact ⟨[], ht, hR.nil⟩

theorem relatesContent_of_quote (hR : Quotable R) {o : Opening} {g : Glyph} {tail : List Glyph}
    {x : Element} {left : Rest (g :: tail)} (hquote : read? (g :: tail) = some (x, left))
    (hclosing : (closing o).take? (g :: tail) = none)
    (ih : RelatesQuote R (g :: tail)) (ihrest : RelatesContent R o left.left) :
    RelatesContent R o (g :: tail) := by
  intro xs rest hr
  rw [content?, hclosing] at hr
  simp only [hquote, Option.map_eq_some_iff, Prod.mk.injEq, Prod.exists] at hr
  obtain ⟨ys, r, hcontent, rfl, rfl⟩ := hr
  obtain ⟨t, ht, hx⟩ := ih _ _ hquote
  obtain ⟨u, hu, hys⟩ := ihrest _ _ hcontent
  refine ⟨t ++ u, ?_, hR.append hx hys⟩
  rw [List.append_assoc]
  exact ht.trans (congrArg (t ++ ·) hu)

theorem relatesContent_of_glyph (hR : Quotable R) {o : Opening} {g : Glyph} {tail : List Glyph}
    (hquote : read? (g :: tail) = none) (hclosing : (closing o).take? (g :: tail) = none)
    (ihrest : RelatesContent R o tail) : RelatesContent R o (g :: tail) := by
  intro xs rest hr
  rw [content?, hclosing] at hr
  simp only [hquote, Option.map_eq_some_iff, Prod.mk.injEq, Prod.exists] at hr
  obtain ⟨ys, r, hcontent, rfl, rfl⟩ := hr
  obtain ⟨u, hu, hys⟩ := ihrest _ _ hcontent
  exact ⟨g :: u, congrArg (g :: ·) hu, hR.append (hR.glyph g) hys⟩

theorem relatesQuote_and_relatesContent (hR : Quotable R) :
    (∀ glyphs, RelatesQuote R glyphs) ∧
      ∀ o glyphs, RelatesContent R o glyphs := by
  apply read?.mutual_induct
  case case1 => exact fun _ _ h => relatesQuote_of_leaf hR h
  case case2 =>
    intro glyphs hleaf hopen x rest hr
    rw [read?, hleaf, hopen] at hr
    cases hr
  case case3 =>
    intro glyphs hleaf o inner hopen x xs left hcontent ih
    exact relatesQuote_of_content hR hleaf hopen hcontent ih
  case case4 =>
    -- an opening with nothing in it, or without its closing mark, is no quote
    intro glyphs hleaf o inner hopen _ _ x rest hr
    rw [read?, hleaf, hopen] at hr
    simp only at hr
    cases hr
  case case5 => exact fun _ _ _ h => relatesContent_of_closing hR h
  case case6 =>
    intro o hclosing xs rest hr
    rw [content?, hclosing] at hr
    cases hr
  case case7 => exact fun _ _ _ _ _ hquote hclosing => relatesContent_of_quote hR hquote hclosing
  case case8 => exact fun _ _ _ hquote hclosing _ => relatesContent_of_glyph hR hquote hclosing

theorem yields_quote (h : Quotable R) : quote.Yields fun t x => R t [x] :=
  .ofTake (relatesQuote_and_relatesContent h).1

end Quote

end Manuscript
