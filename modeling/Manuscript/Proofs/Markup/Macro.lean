import Manuscript.Proofs.Markup.Construct

namespace Manuscript

open Glyph Reader

namespace Macro

variable {keep : Keep} {options : Options}

theorem onlyStrings_insertEntry {name s : String} {entries : List (String × Value)}
    (h : OnlyStrings entries) : OnlyStrings (Dict.insertEntry name (.string s) entries) := by
  induction entries with
  | nil => exact List.forall_mem_singleton.mpr ⟨s, rfl⟩
  | cons entry rest ih =>
    obtain ⟨hentry, hrest⟩ := List.forall_mem_cons.mp h
    rw [Dict.insertEntry]
    split
    · exact List.forall_mem_cons.mpr ⟨⟨s, rfl⟩, h⟩
    · split
      · exact List.forall_mem_cons.mpr ⟨⟨s, rfl⟩, hrest⟩
      · exact List.forall_mem_cons.mpr ⟨hentry, ih hrest⟩

theorem onlyStrings_ofList {entries : List (String × Value)} (h : OnlyStrings entries) :
    OnlyStrings (Dict.ofList entries).entries := by
  suffices hfold : ∀ d : Attributes, OnlyStrings d.entries →
      OnlyStrings (entries.foldl (fun acc entry => acc.insert entry.1 entry.2) d).entries from
    hfold ∅ fun _ he => absurd he List.not_mem_nil
  induction entries with
  | nil => exact fun d hd => hd
  | cons entry rest ih =>
    obtain ⟨⟨s, hs⟩, hrest⟩ := List.forall_mem_cons.mp h
    intro d hd
    rw [List.foldl_cons, hs]
    exact ih hrest _ (onlyStrings_insertEntry hd)

theorem yields_linkScheme : linkScheme.Yields fun t scheme =>
    t = spell scheme ∧ reservedChar ∉ scheme.toList := by
  refine .firstOf (List.forall_mem_map.mpr fun scheme hmem => ?_)
  refine (Yields.literal _).bind fun t _ ht => .pure ?_
  have hplain : ∀ scheme ∈ ["https://", "http://", "ftp://", "irc://", "mailto:"],
      reservedChar ∉ scheme.toList := by decide
  rw [ht, List.append_nil]
  exact ⟨rfl, hplain scheme hmem⟩

theorem yields_content {stop : List Glyph → Bool} :
    (do return content (← someUpTo stop) : Reader (List Element)).Yields fun t xs =>
      xs = content t :=
  (Yields.someUpTo (.upTo _)).bind fun t _ ⟨_, ht, _⟩ => .pure (by rw [ht, List.append_nil])

theorem yields_linkPath : linkPath.Yields fun t xs => xs = content t := yields_content

theorem yields_path : path.Yields fun t xs => xs = content t := yields_content

theorem guarded_argumentEnd : Guarded argumentEnd := fun g h => by simp [argumentEnd, h]

theorem yields_namedArgument :
    namedArgument.Yields fun t entry => Plain t ∧ ∃ s, entry.2 = .string s := by
  refine (yields_plainOf (by decide)).bind fun k key ⟨hk, hkey⟩ => ?_
  refine (Yields.literal _).bind fun e _ he => ?_
  refine (Yields.plainUpTo guarded_argumentEnd).bind fun v value ⟨hv, hvalue⟩ => .pure ?_
  rw [hk, he, hv, List.append_nil]
  refine ⟨?_, _, rfl⟩
  exact plain_append.mpr ⟨hkey, plain_append.mpr ⟨plain_spell.mpr (by decide), hvalue⟩⟩

theorem yields_next {α : Type} {r : Reader α} {Q : α → Prop}
    (h : r.Yields fun t a => Plain t ∧ Q a) : (next r).Yields fun t a => Plain t ∧ Q a := by
  refine (Yields.literal _).bind fun c _ hc => ?_
  refine yields_spaces.bind fun s _ ⟨hs, hspaces⟩ => ?_
  refine h.mono fun t a ⟨ht, ha⟩ => ⟨?_, ha⟩
  rw [hc, hs]
  exact plain_append.mpr ⟨plain_spell.mpr (by decide), plain_append.mpr ⟨hspaces, ht⟩⟩

theorem yields_manyPlain {α : Type} {r : Reader α} {Q : α → Prop}
    (h : r.Yields fun t a => Plain t ∧ Q a) :
    (many r).Yields fun t as => Plain t ∧ ∀ a ∈ as, Q a :=
  h.many.mono fun _ _ => plain_of_repeats

theorem yields_separated {α : Type} {r : Reader α} {Q : α → Prop}
    (h : r.Yields fun t a => Plain t ∧ Q a) :
    (do
      let first ← r
      return first :: (← many (next r)) : Reader (List α)).Yields fun t as =>
        Plain t ∧ ∀ a ∈ as, Q a := by
  refine h.bind fun t first ⟨ht, hfirst⟩ => ?_
  refine (yields_manyPlain (yields_next h)).bind fun u others ⟨hu, hothers⟩ => .pure ?_
  rw [List.append_nil]
  exact ⟨plain_append.mpr ⟨ht, hu⟩, List.forall_mem_cons.mpr ⟨hfirst, hothers⟩⟩

theorem yields_textAndNamed : textAndNamed.Yields fun t entries => ∃ text u named,
    t = text ++ u ∧ Plain u ∧ OnlyStrings named ∧
      entries = (linkTextName, .elements (content text)) :: named := by
  refine Yields.bind (yields_content : (linkText _).Yields _) fun t text htext => ?_
  refine (yields_next yields_namedArgument).bind fun u first ⟨hu, hfirst⟩ => ?_
  refine (yields_manyPlain (yields_next yields_namedArgument)).bind fun v others
    ⟨hv, hothers⟩ => .pure ?_
  rw [List.append_nil, htext]
  exact ⟨t, u ++ v, first :: others, rfl, plain_append.mpr ⟨hu, hv⟩,
    List.forall_mem_cons.mpr ⟨hfirst, hothers⟩, rfl⟩

theorem yields_onlyText : onlyText.Yields fun t entries => ∃ text u named,
    t = text ++ u ∧ Plain u ∧ OnlyStrings named ∧
      entries = (linkTextName, .elements (content text)) :: named := by
  refine Yields.bind (yields_content : wholeLabel.Yields _) fun t text htext => .pure ?_
  rw [htext]
  exact ⟨t, [], [], rfl, plain_nil, fun _ he => absurd he List.not_mem_nil, rfl⟩

theorem yields_linkArguments : linkArguments.Yields Arguments := by
  have ho : Plain (spell "[") := plain_spell.mpr (by decide)
  have hc : Plain (spell "]") := plain_spell.mpr (by decide)
  refine (Yields.literal _).bind fun o _ hopen => ?_
  have hinner : (Reader.optional (firstOf [onlyNamed, textAndNamed, onlyText])).Yields
      fun t entries => Arguments (spell "[" ++ (t ++ spell "]")) (entries.getD []) := by
    refine .optional (.firstOf fun r hr => ?_) ?_
    · have htextual {t text u : List Glyph} {named : List (String × Value)}
          (ht : t = text ++ u) (hu : Plain u) (hnamed : OnlyStrings named) :
          Arguments (spell "[" ++ (t ++ spell "]"))
            ((linkTextName, .elements (content text)) :: named) := by
        rw [ht, List.append_assoc]
        exact .textual (plain_append.mpr ⟨hu, hc⟩) hnamed
      simp only [List.mem_cons, List.not_mem_nil, or_false] at hr
      rcases hr with rfl | rfl | rfl
      · refine (yields_separated yields_namedArgument).mono fun t entries ⟨ht, hentries⟩ => ?_
        exact .named (plain_append.mpr ⟨ho, plain_append.mpr ⟨ht, hc⟩⟩) hentries
      · refine yields_textAndNamed.mono fun t entries ⟨text, u, named, ht, hu, hnamed, he⟩ => ?_
        rw [he]
        exact htextual ht hu hnamed
      · refine yields_onlyText.mono fun t entries ⟨text, u, named, ht, hu, hnamed, he⟩ => ?_
        rw [he]
        exact htextual ht hu hnamed
    · exact .named (plain_append.mpr ⟨ho, hc⟩) fun _ he => absurd he List.not_mem_nil
  refine hinner.bind fun t entries ht => ?_
  refine (Yields.literal _).bind fun c _ hclose => .pure ?_
  rw [hopen, hclose, List.append_nil]
  exact ht

theorem yields_bareLink : (bareLink keep).Yields fun t x => Spells keep options t [x] := by
  refine yields_linkScheme.bind fun s scheme ⟨hs, hscheme⟩ => ?_
  refine yields_linkPath.bind fun p path hp => ?_
  have hargs : (Reader.optional linkArguments).Yields fun t entries =>
      Arguments t (entries.getD []) := .optional yields_linkArguments .absent
  refine hargs.bind fun a entries ha => .pure ?_
  rw [hs, hp, List.append_nil]
  exact .link plain_nil hscheme ha

theorem yields_link : (link keep).Yields fun t x => Spells keep options t [x] := by
  refine (Yields.literal _).bind fun o _ ho => ?_
  have hscheme : (Reader.optional linkScheme).Yields fun t scheme =>
      t = spell (scheme.getD "") ∧ reservedChar ∉ (scheme.getD "").toList :=
    .optional yields_linkScheme ⟨rfl, by decide⟩
  refine hscheme.bind fun s scheme ⟨hs, hscheme⟩ => ?_
  refine yields_path.bind fun p path hp => ?_
  refine yields_linkArguments.bind fun a entries ha => .pure ?_
  rw [ho, hs, hp, List.append_nil]
  exact .link (plain_spell.mpr (by decide)) hscheme ha

def Argument.HoldsString : Argument → Prop
  | .named _ value => ∃ s, value = .string s
  | .positional _ => True

theorem yields_argument : argument.Yields fun t a => Plain t ∧ a.HoldsString := by
  refine .orElse ?_ ?_
  · refine yields_namedArgument.bind fun t entry ⟨ht, hentry⟩ => .pure ?_
    rw [List.append_nil]
    exact ⟨ht, hentry⟩
  · refine (yields_somePlain guarded_argumentEnd).bind fun t value ⟨ht, hp⟩ => .pure ?_
    rw [ht, List.append_nil]
    exact ⟨hp, trivial⟩

theorem yields_arguments : arguments.Yields fun t as => Plain t ∧ ∀ a ∈ as, a.HoldsString := by
  refine (Yields.literal _).bind fun o _ ho => ?_
  have hinner : (Reader.optional do
      let first ← argument
      return first :: (← many (next argument))).Yields
        fun t as => Plain t ∧ ∀ a ∈ as.getD [], a.HoldsString :=
    .optional (yields_separated yields_argument) ⟨plain_nil, by simp⟩
  refine hinner.bind fun t as ⟨ht, has⟩ => ?_
  refine (Yields.literal _).bind fun c _ hc => .pure ?_
  rw [ho, hc, List.append_nil]
  refine ⟨plain_append.mpr ⟨plain_spell.mpr (by decide), ?_⟩, has⟩
  exact plain_append.mpr ⟨ht, plain_spell.mpr (by decide)⟩

theorem onlyStrings_entries (names : List String) (position : Nat) {as : List Argument}
    (h : ∀ a ∈ as, a.HoldsString) : OnlyStrings (entries names position as) := by
  induction as generalizing names position with
  | nil => exact fun _ he => absurd he List.not_mem_nil
  | cons a as ih =>
    obtain ⟨ha, has⟩ := List.forall_mem_cons.mp h
    cases a with
    | named key value => exact List.forall_mem_cons.mpr ⟨ha, ih _ _ has⟩
    | positional value =>
      rw [entries]
      split
      · exact ih _ _ has
      · exact List.forall_mem_cons.mpr ⟨⟨value, rfl⟩, ih _ _ has⟩

theorem onlyStrings_imageAttributes {location : Location Element} {as : List Argument}
    (h : ∀ a ∈ as, a.HoldsString) : OnlyStrings (imageAttributes location as).entries := by
  have hentries := onlyStrings_ofList (onlyStrings_entries ["alt", "width", "height"] 1 h)
  rw [imageAttributes]
  split
  · exact hentries
  · exact onlyStrings_insertEntry hentries

theorem yields_image : (image options).Yields fun t x => Spells keep options t [x] := by
  refine (Yields.literal _).bind fun o _ ho => ?_
  refine (Yields.ahead rfl).bind fun a _ (ha : a = []) => ?_
  refine yields_path.bind fun p path hp => ?_
  refine yields_arguments.bind fun t as ⟨ht, has⟩ => .pure ?_
  rw [ho, ha, hp, List.nil_append, List.append_nil]
  exact .image ht (onlyStrings_imageAttributes has)

theorem yields_icon : icon.Yields fun t x => Spells keep options t [x] := by
  refine (Yields.literal _).bind fun o _ ho => ?_
  refine (yields_somePlain fun g h => by simp [h]).bind fun n name ⟨hn, hname⟩ => ?_
  refine yields_arguments.bind fun t as ⟨ht, has⟩ => .pure ?_
  rw [ho, hn, List.append_nil]
  have hplain : Plain (spell "icon:" ++ (name ++ t)) :=
    plain_append.mpr ⟨plain_spell.mpr (by decide), plain_append.mpr ⟨hname, ht⟩⟩
  exact .icon hplain (onlyStrings_ofList (onlyStrings_entries _ _ has))

theorem yields_documentReference :
    documentReference.Yields fun t x => Spells keep options t [x] := by
  refine (Yields.literal _).bind fun o _ ho => ?_
  refine yields_path.bind fun p path hp => ?_
  refine (Yields.literal _).bind fun b _ hb => ?_
  have hlabel : (Reader.optional wholeLabel).Yields fun t label => label.getD [] = content t :=
    .optional (yields_content : wholeLabel.Yields _) rfl
  refine hlabel.bind fun l label hl => ?_
  refine (Yields.literal _).bind fun c _ hc => .pure ?_
  rw [ho, hp, hb, hl, hc, List.append_nil]
  exact .documentReference

theorem yields_token : token.Yields fun t x => Spells keep options t [x] := by
  intro glyphs x rest hr
  simp only [token] at hr
  split at hr
  · obtain ⟨rfl, rfl⟩ := Prod.mk.inj (Option.some.inj hr)
    exact ⟨[_], rfl, .glyph (.token _)⟩
  · cases hr

theorem yields_token_of {P : Element → Prop} (h : ∀ n, P (.placeholder n)) :
    token.Yields fun _ x => P x := by
  intro glyphs x rest hr
  simp only [token] at hr
  split at hr
  · obtain ⟨rfl, rfl⟩ := Prod.mk.inj (Option.some.inj hr)
    exact ⟨[_], rfl, h _⟩
  · cases hr

theorem yields_noteContent : (noteContent keep).Yields (Spells keep options) := by
  have hitem : (firstOf [token, bareLink keep, noteText]).Yields fun t x =>
      Spells keep options t [x] := by
    refine .firstOf fun r hr => ?_
    simp only [List.mem_cons, List.not_mem_nil, or_false] at hr
    rcases hr with rfl | rfl | rfl
    · exact yields_token
    · exact yields_bareLink
    · refine (yields_somePlain fun g h => by simp [h]).bind fun t text ⟨ht, hp⟩ => .pure ?_
      rw [ht, List.append_nil]
      exact .text hp
  refine hitem.many.bind fun t xs hxs => .pure ?_
  rw [List.append_nil]
  exact .merged (.of_repeats hxs)

theorem yields_footnote : (footnote keep).Yields fun t x => Spells keep options t [x] := by
  refine (Yields.literal _).bind fun o _ ho => ?_
  have hname : (Reader.optional (someOf isKeyChar)).Yields fun t _ => Plain t :=
    .optional ((yields_plainOf (by decide)).mono fun t _ ⟨ht, hp⟩ => ht ▸ hp) plain_nil
  refine hname.bind fun n name hn => ?_
  refine (Yields.literal _).bind fun b _ hb => ?_
  have hcontent : (noteContent keep).Yields (Spells keep options) := yields_noteContent
  refine hcontent.bind fun t xs hxs => ?_
  refine (Yields.literal _).bind fun c _ hc => .pure ?_
  rw [ho, hb, hc, List.append_nil]
  exact .footnote _ hn hxs

theorem yields_indexTerm : indexTerm.Yields fun t x => Spells keep options t [x] := by
  refine (Yields.literal _).bind fun o _ ho => ?_
  refine (Yields.ahead rfl).bind fun a _ (ha : a = []) => ?_
  refine (Yields.someUpTo (.upTo _)).bind fun t term ⟨_, ht, _⟩ => ?_
  refine (Yields.literal _).bind fun c _ hc => .pure ?_
  rw [ho, ha, ht, hc, List.nil_append, List.append_nil]
  exact .indexTerm

theorem yields_hiddenTerm : hiddenTerm.Yields fun t _ => Plain t :=
  (yields_somePlain fun g h => by simp [h]).bind fun t _ ⟨ht, hp⟩ =>
    .pure (by rwa [ht, List.append_nil])

theorem yields_furtherTerms : furtherTerms.Yields fun t _ => Plain t := by
  have hcomma {t : List Glyph} (ht : t = spell ",") : Plain t := ht ▸ plain_spell.mpr (by decide)
  refine (Yields.literal _).bind fun c _ hc => ?_
  refine yields_hiddenTerm.bind fun t _ ht => ?_
  have hthird : (Reader.optional do literal ","; hiddenTerm).Yields fun t _ => Plain t := by
    refine .optional ((Yields.literal _).bind fun d _ hd => ?_) plain_nil
    exact yields_hiddenTerm.mono fun u _ hu => plain_append.mpr ⟨hcomma hd, hu⟩
  refine hthird.bind fun u _ hu => .pure ?_
  rw [List.append_nil]
  exact plain_append.mpr ⟨hcomma hc, plain_append.mpr ⟨ht, hu⟩⟩

theorem yields_hiddenIndexTerm : hiddenIndexTerm.Yields fun t x => Spells keep options t [x] := by
  refine (Yields.literal _).bind fun o _ ho => ?_
  refine yields_hiddenTerm.bind fun t _ ht => ?_
  have hfurther : (Reader.optional furtherTerms).Yields fun t _ => Plain t :=
    .optional yields_furtherTerms plain_nil
  refine hfurther.bind fun u _ hu => ?_
  refine (Yields.literal _).bind fun c _ hc => .pure ?_
  rw [ho, hc, List.append_nil]
  refine .hiddenIndexTerm _ _ _ (plain_append.mpr ⟨plain_spell.mpr (by decide), ?_⟩)
  exact plain_append.mpr ⟨ht, plain_append.mpr ⟨hu, plain_spell.mpr (by decide)⟩⟩

theorem yields_any : (any keep options).Yields fun t x => Spells keep options t [x] := by
  refine .firstOf fun r hr => ?_
  simp only [List.mem_cons, List.not_mem_nil, or_false] at hr
  rcases hr with rfl | rfl | rfl | rfl | rfl | rfl | rfl | rfl | rfl
  · exact yields_image
  · exact yields_link
  · exact yields_bareLink
  · exact yields_documentReference
  · exact Construct.yields_crossReference
  · exact yields_footnote
  · exact yields_hiddenIndexTerm
  · exact yields_indexTerm
  · exact yields_icon

end Macro

end Manuscript
