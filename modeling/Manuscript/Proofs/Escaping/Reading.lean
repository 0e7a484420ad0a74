import Manuscript.Proofs.Escaping.Basic
import Manuscript.Proofs.Grammar.Opening
import Manuscript.Proofs.Markup.Inline
import Manuscript.Proofs.Markup.Lossless

namespace Manuscript

open Glyph

theorem safe_textOf_append {t u : List Glyph} :
    Safe (textOf (t ++ u)) ↔ Safe (textOf t) ∧ Safe (textOf u) := by
  rw [textOf_append, safe_append]

theorem safe_textOf_of_mem {t : List Glyph} (h : Safe (textOf t)) {g : Glyph} (hg : g ∈ t) :
    Safe (textOf [g]) := by
  obtain ⟨before, after, rfl⟩ := List.append_of_mem hg
  rw [← List.singleton_append, safe_textOf_append, safe_textOf_append] at h
  exact h.2.1

theorem safe_textOf_of_chars {p : Char → Bool} {t : List Glyph}
    (h : ∀ g ∈ t, ∃ c, g = .char c ∧ p c) (hp : (p '<' || p '>' || p '&') = false) :
    Safe (textOf t) := by
  refine safe_ofList.mpr fun c hc => ?_
  obtain ⟨g, hg, hc⟩ := List.mem_flatMap.mp hc
  obtain ⟨d, rfl, hd⟩ := h g hg
  obtain rfl := List.mem_singleton.mp hc
  exact not_raw_of hp hd

namespace Reader

variable {α β : Type} {r s : Reader α} {P Q : α → Prop}

def Sound (r : Reader α) (Q : α → Prop) : Prop :=
  r.Yields fun t a => Safe (textOf t) → Q a

namespace Sound

theorem mono (h : r.Sound P) (hPQ : ∀ a, P a → Q a) : r.Sound Q :=
  Yields.mono h fun _ a ha hsafe => hPQ a (ha hsafe)

theorem pure {a : α} (h : Q a) : (Pure.pure a : Reader α).Sound Q :=
  Yields.pure fun _ => h

theorem bind {f : α → Reader β} {R : β → Prop} (h : r.Sound P)
    (hf : ∀ a, P a → (f a).Sound R) : (r >>= f).Sound R := by
  intro glyphs b rest hr
  rw [run_bind, Option.bind_eq_some_iff] at hr
  obtain ⟨⟨a, middle⟩, ha, hb⟩ := hr
  obtain ⟨t, rfl, hp⟩ := h glyphs a middle ha
  obtain ⟨u, rfl⟩ := (f a).suffix hb
  refine ⟨t ++ u, (List.append_assoc ..).symm, fun hsafe => ?_⟩
  obtain ⟨ht, hu⟩ := safe_textOf_append.mp hsafe
  obtain ⟨u', he, hR⟩ := hf a (hp ht) (u ++ rest) b rest hb
  rw [← List.append_cancel_right he] at hR
  exact hR hu

theorem always (h : r.Yields fun _ a => Q a) : r.Sound Q :=
  Yields.mono h fun _ _ ha _ => ha

theorem after {f : α → Reader β} {R : β → Prop} (hf : ∀ a, (f a).Sound R) : (r >>= f).Sound R :=
  bind (P := fun _ => True) (always (yields_true r)) fun a _ => hf a

theorem fail : (Reader.fail : Reader α).Sound Q :=
  Yields.fail

theorem orElse (hr : r.Sound Q) (hs : s.Sound Q) : (Reader.orElse r s).Sound Q :=
  Yields.orElse hr hs

theorem firstOf {readers : List (Reader α)} (h : ∀ r ∈ readers, r.Sound Q) :
    (Reader.firstOf readers).Sound Q :=
  Yields.firstOf h

theorem optional {R : Option α → Prop} (h : r.Sound fun a => R (some a)) (hn : R none) :
    (Reader.optional r).Sound R :=
  Yields.optional h fun _ => hn

theorem upTo (stop : List Glyph → Bool) : (Reader.upTo stop).Sound fun t => Safe (textOf t) :=
  (Yields.upTo stop).mono fun _ _ ⟨he, _⟩ hsafe => he ▸ hsafe

theorem someUpTo (stop : List Glyph → Bool) :
    (Reader.someUpTo stop).Sound fun t => Safe (textOf t) :=
  (Yields.someUpTo (.upTo stop)).mono fun _ _ ⟨_, he, _⟩ hsafe => he ▸ hsafe

theorem someOf (p : Char → Bool) : (Reader.someOf p).Sound fun t => Safe (textOf t) :=
  someUpTo _

theorem many (h : r.Sound Q) : (Reader.many r).Sound fun as => ∀ a ∈ as, Q a := by
  refine (Yields.many h).mono fun t as hrep => ?_
  induction hrep with
  | nil => exact fun _ a ha => absurd ha List.not_mem_nil
  | cons ha _ ih =>
    intro hsafe
    obtain ⟨ht, hu⟩ := safe_textOf_append.mp hsafe
    exact List.forall_mem_cons.mpr ⟨ha ht, ih hu⟩

end Sound

end Reader

open Reader

theorem escaped_glyph {g : Glyph} (h : Safe (textOf [g])) : AllEscaped [g.element] := by
  cases g with
  | char c => exact escaped_leaf (escaped_text.mpr (by simpa [textOf, chars, Safe] using h)) rfl rfl
  | token digits => exact escaped_leaf (by simp [element, Element.Escaped, Element.strings]) rfl rfl

theorem escaped_content {t : List Glyph} (h : Safe (textOf t)) : AllEscaped (content t) :=
  (escaped_merge _).mpr (everywhere_map fun _ hg => escaped_glyph (safe_textOf_of_mem h hg))

theorem safe_plainText_content {t : List Glyph} (h : Safe (textOf t)) :
    Safe (plainText (content t)) := by
  refine h.of_subset ?_
  rw [toList_textOf]
  exact (plainText_content_sublist t).subset

def Options.Safe (options : Options) : Prop :=
  ∀ directory ∈ options.imagesDirectory, Manuscript.Safe directory

theorem Options.Safe.getD {options : Options} (h : options.Safe) :
    Manuscript.Safe (options.imagesDirectory.getD "") := by
  cases hd : options.imagesDirectory with
  | none => exact safe_empty
  | some directory => exact h directory hd

namespace Construct

theorem escaped_shielded (shield : Shield) {t : List Glyph} (h : Safe (textOf t)) :
    AllEscaped [shielded shield t] := by
  refine escaped_singleton (by simp [shielded, Element.Escaped, Element.strings]) ?_ rfl
  exact List.forall_mem_singleton.mpr (everywhere_fragment (escaped_text.mpr h))

theorem sound_passthrough : passthrough.Sound fun x => AllEscaped [x] := by
  refine .firstOf fun r hr => ?_
  simp only [List.mem_cons, List.not_mem_nil, or_false] at hr
  rcases hr with rfl | rfl | rfl
  · exact .after fun _ => (Sound.upTo _).bind fun t ht => .after fun _ =>
      .pure (escaped_shielded _ ht)
  · exact .after fun _ => .after fun _ => (Sound.someUpTo _).bind fun t ht => .after fun _ =>
      .after fun _ => .pure (escaped_shielded _ ht)
  · exact .after fun _ => (Sound.upTo _).bind fun t ht => .after fun _ =>
      .pure (escaped_shielded _ ht)

theorem escaped_callout : callout.Yields fun _ x => AllEscaped [x] :=
  yields_callout_of fun _ => escaped_leaf nofun rfl rfl

theorem escaped_crossReference : crossReference.Yields fun _ x => AllEscaped [x] :=
  yields_crossReference_of fun _ _ => escaped_leaf trivial rfl rfl

theorem escaped_special : special.Yields fun _ x => AllEscaped [x] :=
  yields_special_of (fun _ _ => escaped_leaf trivial rfl rfl) fun _ hname =>
    escaped_leaf hname rfl rfl

theorem sound_attributeName : attributeName.Sound Safe :=
  .after fun _ => (Sound.someOf _).bind fun _ ht => .pure ht

theorem safe_parse {raw : String} (h : Safe raw) : ∀ s ∈ (Count.parse raw).strings, Safe s := by
  rw [Count.parse]
  split
  · exact fun s hs => absurd hs List.not_mem_nil
  · next c _ hc =>
    refine List.forall_mem_singleton.mpr (safe_singleton.mpr (h c ?_))
    simp [hc]
  · exact List.forall_mem_singleton.mpr h

theorem sound_counter : counter.Sound fun x => AllEscaped [x] := by
  have hstart : (Reader.optional do
      literal ":"
      someUpTo fun glyphs =>
        atReserved glyphs || headIs (fun c => c == '\x7d' || Cause.isNewline c) glyphs).Sound
      fun start => ∀ s ∈ start, Safe (textOf s) :=
    .optional (.after fun _ => (Sound.someUpTo _).mono fun t ht => by simpa using ht) (by simp)
  refine .after fun _ => .after fun hidden => .after fun _ => sound_attributeName.bind fun name hname => ?_
  refine hstart.bind fun start hsafe => .after fun _ => .pure (escaped_leaf ?_ rfl rfl)
  refine List.forall_mem_cons.mpr ⟨hname, ?_⟩
  cases start with
  | none => simp
  | some t => simpa using safe_parse (hsafe t rfl)

theorem sound_attributeOrCounter : attributeOrCounter.Sound fun x => AllEscaped [x] := by
  refine .firstOf fun r hr => ?_
  simp only [List.mem_cons, List.not_mem_nil, or_false] at hr
  rcases hr with rfl | rfl | rfl
  · refine .after fun _ => sound_attributeName.bind fun name hname => .after fun _ => .pure ?_
    exact escaped_leaf (escaped_text.mpr (safe_literalReference hname)) rfl rfl
  · exact sound_counter
  · refine .after fun _ => sound_attributeName.bind fun name hname => .after fun _ => .pure ?_
    exact escaped_leaf (List.forall_mem_singleton.mpr hname) rfl rfl

theorem escaped_symbol {name : String} (h : Safe name) : AllEscaped [.symbol name] :=
  escaped_leaf (List.forall_mem_singleton.mpr h) rfl rfl

theorem escaped_contractionElement {g : Glyph} (h : Safe (textOf [g])) :
    AllEscaped [contractionElement g] := by
  unfold contractionElement
  split
  · next c =>
    split
    · exact escaped_symbol (by simpa [textOf, chars, Safe] using h)
    · exact escaped_glyph h
  · exact escaped_glyph h

theorem sound_single {r : Reader Element} (h : r.Sound fun x => AllEscaped [x]) :
    (single r).Sound AllEscaped :=
  h.bind fun _ hx => .pure hx

theorem sound_replacement : replacement.Sound AllEscaped := by
  refine .orElse (sound_single (.firstOf fun r hr => ?_)) ?_
  · simp only [List.mem_cons, List.not_mem_nil, or_false] at hr
    rcases hr with rfl | rfl | rfl
    · refine .firstOf (List.forall_mem_map.mpr fun name hname => .after fun _ => .pure ?_)
      have hsafe : ∀ name ∈ ["(C)", "(TM)", "(R)", "..."], Safe name := by decide
      exact escaped_symbol (hsafe name hname)
    · exact .after fun _ => .after fun _ => .pure (escaped_symbol (by decide))
    · exact .after fun _ => (Sound.someOf _).bind fun t ht =>
        .pure (escaped_leaf (escaped_text.mpr ht) rfl rfl)
  · exact .after fun _ => (Sound.someUpTo _).bind fun t ht =>
      .pure (everywhere_map fun g hg => escaped_contractionElement (safe_textOf_of_mem ht hg))

theorem escaped_lineBreak : lineBreak.Yields fun _ x => AllEscaped [x] :=
  yields_lineBreak_of (escaped_leaf nofun rfl rfl)

end Construct

namespace Macro

variable {options : Options}

theorem sound_linkScheme : linkScheme.Sound Safe := by
  refine .firstOf (List.forall_mem_map.mpr fun scheme hmem => .after fun _ => .pure ?_)
  have hsafe : ∀ scheme ∈ ["https://", "http://", "ftp://", "irc://", "mailto:"], Safe scheme := by
    decide
  exact hsafe scheme hmem

theorem sound_content {stop : List Glyph → Bool} :
    (do return content (← someUpTo stop) : Reader (List Element)).Sound fun xs =>
      AllEscaped xs ∧ Safe (plainText xs) :=
  (Sound.someUpTo _).bind fun _ ht => .pure ⟨escaped_content ht, safe_plainText_content ht⟩

theorem sound_contentEscaped {stop : List Glyph → Bool} :
    (do return content (← someUpTo stop) : Reader (List Element)).Sound AllEscaped :=
  sound_content.mono fun _ => And.left

theorem unquote_sublist (cs : List Char) : (unquote cs).Sublist cs := by
  unfold unquote
  split
  · exact List.Sublist.refl []
  · split
    · exact (List.dropLast_sublist _).trans (List.sublist_cons_self _ _)
    · exact List.Sublist.refl _

theorem safe_argumentText {t : List Glyph} (h : Safe (textOf t)) : Safe (argumentText t) := by
  refine (h.trim).of_subset ?_
  rw [argumentText, Text.trim, toList_textOf, String.toList_ofList, String.toList_ofList]
  exact (unquote_sublist _).subset

theorem sound_namedArgument : namedArgument.Sound fun entry => EscapedEntries [entry] :=
  (Sound.someOf _).bind fun _ hkey => .after fun _ => (Sound.upTo _).bind fun _ hvalue =>
    .pure (.string hkey (safe_argumentText hvalue))

theorem sound_next {α : Type} {r : Reader α} {Q : α → Prop} (h : r.Sound Q) : (next r).Sound Q :=
  .after fun _ => .after fun _ => h

theorem sound_separated {α : Type} {r : Reader α} {Q : α → Prop} (h : r.Sound Q) :
    (do
      let first ← r
      return first :: (← many (next r)) : Reader (List α)).Sound fun as => ∀ a ∈ as, Q a :=
  h.bind fun _ hfirst => (sound_next h).many.bind fun _ hothers =>
    .pure (List.forall_mem_cons.mpr ⟨hfirst, hothers⟩)

theorem escaped_entries_iff {entries : List (String × Value)} :
    EscapedEntries entries ↔ ∀ entry ∈ entries, EscapedEntries [entry] := by
  simp [EscapedEntries]

theorem escaped_linkText {text : List Element} (h : AllEscaped text) :
    EscapedEntries [(linkTextName, .elements text)] := by
  simp [EscapedEntries, Value.strings, Value.sequences, h]
  decide

theorem sound_linkArguments : linkArguments.Sound EscapedEntries := by
  refine .after fun _ => Sound.bind (P := fun found => EscapedEntries (found.getD []))
    (.optional (.firstOf fun r hr => ?_) .nil) fun _ h => .after fun _ => .pure h
  simp only [List.mem_cons, List.not_mem_nil, or_false] at hr
  rcases hr with rfl | rfl | rfl
  · exact (sound_separated sound_namedArgument).mono fun _ => escaped_entries_iff.mpr
  · refine Sound.bind (sound_contentEscaped : (linkText _).Sound _) fun text htext => ?_
    refine (sound_next sound_namedArgument).bind fun first hfirst => ?_
    refine (sound_next sound_namedArgument).many.bind fun others hothers => .pure ?_
    exact EscapedEntries.cons.mpr ⟨escaped_linkText htext,
      EscapedEntries.cons.mpr ⟨hfirst, escaped_entries_iff.mpr hothers⟩⟩
  · exact Sound.bind (sound_contentEscaped : wholeLabel.Sound _) fun text htext =>
      .pure (escaped_linkText htext)

theorem escaped_linked {scheme : String} {path : List Element} {entries : List (String × Value)}
    (hscheme : Safe scheme) (hpath : AllEscaped path) (hentries : EscapedEntries entries) :
    AllEscaped [.link ⟨scheme, path⟩ (Dict.ofList entries)] := by
  refine escaped_singleton (List.forall_mem_cons.mpr ⟨hscheme, hentries.ofList.strings⟩) ?_ rfl
  exact List.forall_mem_cons.mpr ⟨hpath, hentries.ofList.sequences⟩

theorem sound_bareLink : (bareLink Dict.ofList).Sound fun x => AllEscaped [x] := by
  refine sound_linkScheme.bind fun scheme hscheme => ?_
  refine Sound.bind (sound_contentEscaped : linkPath.Sound _) fun path hpath => ?_
  refine Sound.bind (P := fun found => EscapedEntries (found.getD []))
    (.optional sound_linkArguments .nil) fun _ hentries => .pure ?_
  exact escaped_linked hscheme hpath hentries

theorem sound_link : (link Dict.ofList).Sound fun x => AllEscaped [x] := by
  refine .after fun _ => Sound.bind (P := fun found => Safe (found.getD ""))
    (.optional sound_linkScheme safe_empty) fun scheme hscheme => ?_
  refine Sound.bind (sound_contentEscaped : path.Sound _) fun path hpath => ?_
  exact sound_linkArguments.bind fun _ hentries => .pure (escaped_linked hscheme hpath hentries)

def Argument.Escaped : Argument → Prop
  | .named key value => EscapedEntries [(key, value)]
  | .positional value => Safe value

theorem sound_arguments : arguments.Sound fun arguments => ∀ a ∈ arguments, a.Escaped := by
  have hargument : argument.Sound Argument.Escaped :=
    .orElse (sound_namedArgument.bind fun _ h => .pure h)
      ((Sound.someUpTo _).bind fun _ h => .pure (safe_argumentText h))
  refine .after fun _ => Sound.bind (P := fun found => ∀ a ∈ found.getD [], a.Escaped)
    (.optional (sound_separated hargument) ?_) fun _ h => .after fun _ => .pure h
  simp

theorem escaped_entries (names : List String) (hnames : ∀ name ∈ names, Safe name) (position : Nat)
    {arguments : List Argument} (h : ∀ a ∈ arguments, a.Escaped) :
    EscapedEntries (entries names position arguments) := by
  induction arguments generalizing names position with
  | nil => exact .nil
  | cons argument rest ih =>
    obtain ⟨hfirst, hrest⟩ := List.forall_mem_cons.mp h
    cases argument with
    | named key value => exact EscapedEntries.cons.mpr ⟨hfirst, ih names hnames position hrest⟩
    | positional value =>
      have hothers := ih (names.drop 1) (fun name hname => hnames name (List.mem_of_mem_drop hname))
        (position + 1) hrest
      rw [entries]
      split
      · exact hothers
      · refine EscapedEntries.cons.mpr ⟨.string ?_ hfirst, hothers⟩
        cases names with
        | nil => exact safe_append.mpr ⟨by decide, safe_toString_nat position⟩
        | cons name names => exact hnames name List.mem_cons_self

theorem safe_stem {location : Location Element} (h : Safe location.url) : Safe location.stem := by
  refine h.of_subset ?_
  have hbase : (Location.baseName location.url.toList).Sublist location.url.toList := by
    have := (List.takeWhile_sublist (· ≠ '/') (l := location.url.toList.reverse)).reverse
    rwa [List.reverse_reverse] at this
  have hextension (base : List Char) : (Location.dropExtension base).Sublist base := by
    have hstem := List.dropWhile_sublist (· ≠ '.') (l := base.reverse)
    unfold Location.dropExtension
    split
    · exact .refl base
    · exact .refl base
    · next hdrop =>
      rw [hdrop] at hstem
      have := ((List.sublist_cons_self _ _).trans hstem).reverse
      rwa [List.reverse_reverse] at this
  rw [Location.stem, String.toList_ofList]
  exact ((hextension _).trans hbase).subset

theorem escaped_below {directory : String} (hd : Safe directory) {path : List Element}
    (hpath : AllEscaped path) (hplain : Safe (plainText path)) :
    Safe (Location.below directory ⟨"", path⟩).scheme ∧
      AllEscaped (Location.below directory ⟨"", path⟩).path ∧
      Safe (Location.below directory ⟨"", path⟩).url := by
  have hstart : Safe (Text.dropTrailing '/' directory ++ "/") :=
    safe_append.mpr ⟨hd.dropTrailing, by decide⟩
  have hbare : Safe (Location.url ⟨"", path⟩) := safe_append.mpr ⟨safe_empty, hplain⟩
  refine ⟨?_, everywhere_path_below escaped_text_append escaped_text_empty
    (escaped_text.mpr hstart) hpath, ?_⟩
  · rcases Location.below_cases directory ⟨"", path⟩ with h | h <;> rw [h] <;> exact safe_empty
  · rcases Location.below_cases directory ⟨"", path⟩ with h | h
    · rw [h]
      exact hbare
    · rw [h, Location.url, plainText_merge, plainText]
      exact safe_append.mpr ⟨safe_empty, safe_append.mpr ⟨hstart, hplain⟩⟩

theorem escaped_imageAttributes {location : Location Element} (hurl : Safe location.url)
    {arguments : List Argument} (h : ∀ a ∈ arguments, a.Escaped) :
    EscapedEntries (imageAttributes location arguments).entries := by
  have hentries := (escaped_entries ["alt", "width", "height"] (by decide) 1 h).ofList
  rw [imageAttributes]
  split
  · exact hentries
  · intro entry he
    rcases Dict.mem_insertEntry he with rfl | he
    · exact EscapedEntries.string (by decide) (safe_stem hurl) _ List.mem_cons_self
    · exact hentries entry he

theorem sound_image (hoptions : options.Safe) : (image options).Sound fun x => AllEscaped [x] := by
  refine .after fun _ => .after fun _ => ?_
  refine Sound.bind (sound_content : path.Sound _) fun path ⟨hpath, hplain⟩ => ?_
  refine sound_arguments.bind fun arguments hargs => .pure ?_
  obtain ⟨hscheme, hbelow, hurl⟩ := escaped_below hoptions.getD hpath hplain
  have hattributes := escaped_imageAttributes hurl hargs
  refine escaped_singleton (List.forall_mem_cons.mpr ⟨hscheme, hattributes.strings⟩) ?_ rfl
  exact List.forall_mem_cons.mpr ⟨hbelow, hattributes.sequences⟩

theorem sound_icon : icon.Sound fun x => AllEscaped [x] := by
  refine .after fun _ => (Sound.someUpTo _).bind fun name hname => ?_
  refine sound_arguments.bind fun arguments hargs => .pure ?_
  have hattributes := (escaped_entries ["size"] (by decide) 1 hargs).ofList
  exact escaped_singleton (List.forall_mem_cons.mpr ⟨hname, hattributes.strings⟩)
    hattributes.sequences rfl

theorem sound_documentReference : documentReference.Sound fun x => AllEscaped [x] := by
  refine .after fun _ => ?_
  refine Sound.bind (sound_contentEscaped : path.Sound _) fun path hpath => .after fun _ => ?_
  have hlabel : (Reader.optional wholeLabel).Sound fun label => AllEscaped (label.getD []) :=
    Sound.optional (R := fun label => AllEscaped (label.getD []))
      (sound_contentEscaped : wholeLabel.Sound _) everywhere_nil
  refine hlabel.bind fun label hlabel => .after fun _ => .pure ?_
  refine escaped_singleton (List.forall_mem_singleton.mpr safe_empty) ?_ rfl
  exact List.forall_mem_cons.mpr ⟨hpath, List.forall_mem_singleton.mpr hlabel⟩

theorem sound_noteContent : (noteContent Dict.ofList).Sound AllEscaped := by
  have hitem : (firstOf [token, bareLink Dict.ofList, noteText]).Sound fun x => AllEscaped [x] := by
    refine .firstOf fun r hr => ?_
    simp only [List.mem_cons, List.not_mem_nil, or_false] at hr
    rcases hr with rfl | rfl | rfl
    · exact .always (yields_token_of fun _ => escaped_leaf nofun rfl rfl)
    · exact sound_bareLink
    · exact (Sound.someUpTo _).bind fun t ht => .pure (escaped_leaf (escaped_text.mpr ht) rfl rfl)
  refine hitem.many.bind fun xs hxs => .pure ((escaped_merge xs).mpr ?_)
  exact everywhere_iff.mpr fun x hx => everywhere_singleton.mp (hxs x hx)

theorem sound_footnote : (footnote Dict.ofList).Sound fun x => AllEscaped [x] := by
  have hname : (Reader.optional (someOf isKeyChar)).Sound fun name =>
      ∀ s ∈ (name.map textOf).toList, Safe s :=
    .optional ((Sound.someOf _).mono fun t ht => by simpa using ht) (by simp)
  refine .after fun _ => hname.bind fun name hname => .after fun _ => ?_
  refine sound_noteContent.bind fun xs hxs => .after fun _ => .pure ?_
  exact escaped_singleton hname (List.forall_mem_singleton.mpr hxs) rfl

theorem sound_indexTerm : indexTerm.Sound fun x => AllEscaped [x] := by
  refine .after fun _ => .after fun _ => (Sound.someUpTo _).bind fun t ht => .after fun _ => .pure ?_
  refine escaped_singleton (by simp [Element.Escaped, Element.strings]) ?_ rfl
  exact List.forall_mem_singleton.mpr (escaped_content ht)

theorem sound_hiddenTerm : hiddenTerm.Sound Safe :=
  (Sound.someUpTo _).bind fun _ ht => .pure ht.trim

theorem sound_hiddenIndexTerm : hiddenIndexTerm.Sound fun x => AllEscaped [x] := by
  have hthird : (Reader.optional do literal ","; hiddenTerm).Sound fun third =>
      ∀ s ∈ third.toList, Safe s :=
    .optional (.after fun _ => sound_hiddenTerm.mono fun s hs => by simpa using hs) (by simp)
  have hfurther : (Reader.optional furtherTerms).Sound fun further =>
      ∀ s ∈ (further.map (·.1)).toList ++ (further.bind (·.2)).toList, Safe s := by
    refine .optional (.after fun _ => sound_hiddenTerm.bind fun second hsecond => ?_) (by simp)
    exact hthird.bind fun third hthird => .pure (List.forall_mem_cons.mpr ⟨hsecond, hthird⟩)
  refine .after fun _ => sound_hiddenTerm.bind fun first hfirst => ?_
  refine hfurther.bind fun further hall => .after fun _ => .pure ?_
  exact escaped_leaf (List.forall_mem_cons.mpr ⟨hfirst, hall⟩) rfl rfl

theorem sound_any (hoptions : options.Safe) :
    (any Dict.ofList options).Sound fun x => AllEscaped [x] := by
  refine .firstOf fun r hr => ?_
  simp only [List.mem_cons, List.not_mem_nil, or_false] at hr
  rcases hr with rfl | rfl | rfl | rfl | rfl | rfl | rfl | rfl | rfl
  · exact sound_image hoptions
  · exact sound_link
  · exact sound_bareLink
  · exact sound_documentReference
  · exact .always Construct.escaped_crossReference
  · exact sound_footnote
  · exact sound_hiddenIndexTerm
  · exact sound_indexTerm
  · exact sound_icon

end Macro

namespace Quote

theorem safe_of_isRole {role : String} (h : IsRole role) : Safe role :=
  fun c hc => not_raw_of (by decide +kernel) (h c hc)

theorem escaped_wrap (wrapper : Wrapper) (hroles : ∀ role ∈ wrapper.roles, IsRole role)
    {xs : List Element} (h : AllEscaped xs) : AllEscaped [wrapper.wrap xs] := by
  cases wrapper with
  | quoted style roles =>
    refine escaped_singleton ?_ (List.forall_mem_cons.mpr ⟨h, ?_⟩) rfl
    · cases roles with
      | none => exact fun s hs => absurd hs List.not_mem_nil
      | some roles =>
        change ∀ s ∈ stringsOf [("role", .roles roles)], Safe s
        simp only [stringsOf, Value.strings, List.flatMap_singleton, List.forall_mem_cons]
        exact ⟨by decide, fun role hrole => safe_of_isRole (hroles role hrole)⟩
    · rw [sequencesOf_roleAttributes]
      exact fun s hs => absurd hs List.not_mem_nil
  | quotation mark =>
    refine escaped_singleton ?_ (List.forall_mem_singleton.mpr h) rfl
    exact fun s hs => absurd hs List.not_mem_nil

theorem quotable_escaped : Quotable fun t xs => Safe (textOf t) → AllEscaped xs where
  nil _ := everywhere_nil
  append ht hu h := by
    obtain ⟨hsafe, hsafe'⟩ := safe_textOf_append.mp h
    exact everywhere_append.mpr ⟨ht hsafe, hu hsafe'⟩
  merged ht h := (escaped_merge _).mpr (ht h)
  glyph _ h := escaped_glyph h
  text _ h := escaped_leaf (escaped_text.mpr h) rfl rfl
  escaped hmark _ := by
    have hsafe : ∀ mark ∈ escapable, Safe mark := by decide
    exact escaped_leaf (escaped_text.mpr (hsafe _ hmark)) rfl rfl
  wrapped wrapper hroles _ _ ht _ h := by
    obtain ⟨-, h⟩ := safe_textOf_append.mp h
    exact escaped_wrap wrapper hroles (ht (safe_textOf_append.mp h).1)

end Quote

namespace Fragment

variable {rule : Rule} {options : Options}

theorem sound_construct (hoptions : options.Safe) (rule : Rule) :
    (construct options rule).Sound AllEscaped := by
  cases rule with
  | passthroughs => exact Construct.sound_single Construct.sound_passthrough
  | callouts => exact Construct.sound_single (.always Construct.escaped_callout)
  | specials => exact Construct.sound_single (.always Construct.escaped_special)
  | quotes => exact Construct.sound_single (Quote.yields_quote Quote.quotable_escaped)
  | attributes => exact Construct.sound_single Construct.sound_attributeOrCounter
  | replacements => exact Construct.sound_replacement
  | macros => exact Construct.sound_single (Macro.sound_any hoptions)
  | postReplacements => exact Construct.sound_single (.always Construct.escaped_lineBreak)
  | plain => exact .fail
  | attribution => exact .fail

theorem escaped_read (hoptions : options.Safe) (rule : Rule) {glyphs : List Glyph}
    (h : Safe (textOf glyphs)) : AllEscaped (read (construct options rule) glyphs) :=
  @relates_read (fun t xs => Safe (textOf t) → AllEscaped xs) (fun _ => everywhere_nil)
    (fun _ _ _ _ => Quote.quotable_escaped.append) (fun _ => escaped_glyph)
    (fun _ => Quote.quotable_escaped.text) _ (sound_construct hoptions rule) glyphs h

theorem escaped_parse (hoptions : options.Safe) {text : String} (htext : Safe text)
    {parsed : List Element} (h : parse rule options text = .ok parsed) : AllEscaped parsed := by
  by_cases hrule : rule = .attribution
  · subst hrule
    obtain ⟨author, rfl, -, -, rfl⟩ := parse_attribution_eq_ok_iff.mp h
    exact escaped_leaf (escaped_text.mpr (safe_append.mp htext).2) rfl rfl
  · rw [parse_eq_ok hrule h, escaped_merge]
    refine escaped_read hoptions rule ?_
    rwa [textOf, flatMap_chars_scan, String.ofList_toList]

theorem opens_special : Construct.special.Opens ['<', '>', '&'] := by
  have hcross : Construct.crossReference.Opens ['<'] := (Opens.literal rfl).bind
  have hopens {name : String} {c : Char} (hname : name.toList = [c]) (hc : c ∈ ['<', '>', '&']) :
      (do literal name; return Element.special name : Reader Element).Opens ['<', '>', '&'] :=
    (Opens.literal hname).bind.mono fun _ hmem => List.mem_singleton.mp hmem ▸ hc
  have hchar : Construct.specialChar.Opens ['<', '>', '&'] := by
    refine .firstOf fun r hr => ?_
    simp only [List.map_cons, List.map_nil, List.mem_cons, List.not_mem_nil, or_false] at hr
    rcases hr with rfl | rfl | rfl
    · exact hopens rfl (by decide)
    · exact hopens rfl (by decide)
    · exact hopens rfl (by decide)
  exact (hcross.orElse hchar).mono (by decide)

theorem run_specialChar {c : Char} (h : isRaw c) (rest : List Glyph) :
    Construct.specialChar.run (.char c :: rest) =
      some (.special (String.singleton c), rest) := by
  simp only [isRaw, Bool.or_eq_true, beq_iff_eq] at h
  rcases h with (rfl | rfl) | rfl <;> rfl

theorem not_raw_of_untaken {c : Char} {rest : List Glyph}
    (h : (construct options .specials).take? (.char c :: rest) = none) : isRaw c = false := by
  have hnone := Opens.take?_eq_none opens_special.bind h
  by_contra hraw
  rw [Bool.not_eq_false] at hraw
  change (Construct.special.run (.char c :: rest)).bind _ = none at hnone
  rw [Construct.special, run_orElse, run_specialChar hraw] at hnone
  cases hcross : Construct.crossReference.run (.char c :: rest) with
  | none => rw [hcross] at hnone; cases hnone
  | some found => rw [hcross] at hnone; cases hnone

theorem escaped_parse_specials {text : String} {parsed : List Element}
    (h : parse .specials options text = .ok parsed) : AllEscaped parsed := by
  rw [parse_eq_ok (by decide) h, escaped_merge]
  refine @relates_read_of_untaken (fun _ xs => AllEscaped xs) _ everywhere_nil
    (fun _ _ _ _ hxs hys => everywhere_append.mpr ⟨hxs, hys⟩) (fun digits => ?_)
    (fun c rest hnone => ?_) (fun t ht => ?_) ?_ _
  · exact escaped_leaf (by simp [Element.Escaped, Element.strings]) rfl rfl
  · exact escaped_leaf (escaped_text.mpr (safe_singleton.mpr (not_raw_of_untaken hnone))) rfl rfl
  · exact escaped_leaf (escaped_text.mpr (safe_textOf_of_chars ht (by decide +kernel))) rfl rfl
  · exact Construct.yields_single Construct.escaped_special

end Fragment

end Manuscript
