import Manuscript.Proofs.Markup.Inline
import Manuscript.Proofs.Placeholder.Preservation
import Manuscript.Proofs.Reserved.Tidy

namespace Manuscript

open Glyph Reader Pending

namespace Glyph

def Readable (tokensAllowed : Prop) : Glyph → Prop
  | .char c => c ≠ reservedChar
  | .token _ => tokensAllowed

end Glyph

def Element.Fresh (tokensAllowed : Prop) (x : Element) : Prop :=
  (tokensAllowed ∧ ∃ n, x = .placeholder n) ∨ (x.Tidy ∧ x.held = [])

def Options.Clean (options : Options) : Prop :=
  ∀ directory ∈ options.imagesDirectory, Manuscript.Clean directory

variable {tokensAllowed : Prop}

theorem fresh_text {s : String} : (Element.text s).Fresh tokensAllowed ↔ Clean s := by
  simp [Element.Fresh, Element.Tidy, Element.held]

theorem fresh_merge (elements : List Element) :
    Everywhere (Element.Fresh tokensAllowed) (merge elements) ↔
      Everywhere (Element.Fresh tokensAllowed) elements := by
  refine everywhere_merge (fun s t => ?_) (fresh_text.mpr clean_empty) elements
  rw [fresh_text, fresh_text, fresh_text, clean_append]

theorem fresh_singleton {x : Element} (h : x.Tidy) (hheld : x.held = [])
    (hs : ∀ s ∈ x.children, Everywhere (Element.Fresh tokensAllowed) s) :
    Everywhere (Element.Fresh tokensAllowed) [x] := by
  refine everywhere_singleton.mpr ⟨.inr ⟨h, hheld⟩, hs, fun s hs => ?_⟩
  rw [hheld] at hs
  cases hs

theorem fresh_leaf {x : Element} (h : x.Tidy) (hheld : x.held = []) (hs : x.children = []) :
    Everywhere (Element.Fresh tokensAllowed) [x] := by
  refine fresh_singleton h hheld fun s hmem => ?_
  rw [hs] at hmem
  cases hmem

theorem fresh_glyph {g : Glyph} (h : g.Readable tokensAllowed) :
    Everywhere (Element.Fresh tokensAllowed) [g.element] := by
  cases g with
  | char c => exact fresh_leaf (clean_singleton.mpr h) rfl rfl
  | token digits =>
    exact everywhere_leaf (.inl ⟨h, _, rfl⟩) rfl rfl

theorem fresh_content {t : List Glyph} (h : ∀ g ∈ t, g.Readable tokensAllowed) :
    Everywhere (Element.Fresh tokensAllowed) (content t) := by
  rw [content, fresh_merge]
  exact everywhere_map fun g hg => fresh_glyph (h g hg)

theorem fresh_fragment {s : String} (h : Clean s) :
    Everywhere (Element.Fresh tokensAllowed) (fragment s) := by
  rw [fragment]
  split
  · exact everywhere_nil
  · exact fresh_leaf h rfl rfl

theorem clean_textOf {t : List Glyph} (h : Plain t) : Clean (textOf t) := by
  obtain ⟨cs, rfl, hcs⟩ := exists_chars_of_plain h
  rw [textOf_map_char]
  exact clean_ofList.mpr hcs

theorem fresh_path_below {directory : String} (hd : Clean directory) {location : Location Element}
    (h : Everywhere (Element.Fresh tokensAllowed) location.path) :
    Everywhere (Element.Fresh tokensAllowed) (Location.below directory location).path := by
  refine everywhere_path_below (fun s t => ?_) (fresh_text.mpr clean_empty) ?_ h
  · rw [fresh_text, fresh_text, fresh_text, clean_append]
  · exact fresh_text.mpr (clean_append.mpr ⟨Text.clean_dropTrailing hd, by decide⟩)

theorem Macro.Arguments.fresh {t : List Glyph} {entries : List (String × Value)}
    (h : Macro.Arguments t entries) (ht : ∀ g ∈ t, g.Readable tokensAllowed) :
    ∀ s ∈ sequencesOf entries, Everywhere (Element.Fresh tokensAllowed) s := by
  cases h with
  | absent => exact fun s hs => absurd hs List.not_mem_nil
  | named _ hstrings =>
    rw [sequencesOf_onlyStrings hstrings]
    exact fun s hs => absurd hs List.not_mem_nil
  | @textual text u named _ hstrings =>
    rw [sequencesOf, sequencesOf_onlyStrings hstrings]
    refine List.forall_mem_singleton.mpr (fresh_content fun g hg => ht g ?_)
    exact List.mem_append_right _ (List.mem_append_left _ hg)

theorem fresh_of_spells {options : Options} (hoptions : options.Clean) {t : List Glyph}
    {xs : List Element} (h : Spells Dict.ofList options t xs)
    (ht : ∀ g ∈ t, g.Readable tokensAllowed) : Everywhere (Element.Fresh tokensAllowed) xs := by
  induction h with
  | nil => exact everywhere_nil
  | append _ _ hxs hys =>
    obtain ⟨ht, hu⟩ := List.forall_mem_append.mp ht
    exact everywhere_append.mpr ⟨hxs ht, hys hu⟩
  | merged _ hxs => exact (fresh_merge _).mpr (hxs ht)
  | glyph g => exact fresh_glyph (ht g (List.mem_singleton_self g))
  | text hplain => exact fresh_leaf (clean_textOf hplain) rfl rfl
  | escaped hplain => exact fresh_leaf (clean_textOf hplain) rfl rfl
  | passthrough shield hplain =>
    exact fresh_singleton trivial rfl
      (List.forall_mem_singleton.mpr (fresh_fragment (clean_textOf hplain)))
  | callout => exact fresh_leaf trivial rfl rfl
  | special hname => exact fresh_leaf hname rfl rfl
  | symbol hname => exact fresh_leaf hname rfl rfl
  | lineBreak => exact fresh_leaf trivial rfl rfl
  | crossReference hid _ hlabel =>
    refine fresh_leaf ⟨clean_textOf hid, fun l hl => ?_⟩ rfl rfl
    obtain ⟨u, hu, rfl⟩ := Option.map_eq_some_iff.mp hl
    exact Text.clean_trim (clean_textOf (hlabel u hu))
  | attributeReference hname => exact fresh_leaf (clean_textOf hname) rfl rfl
  | counter => exact fresh_leaf trivial rfl rfl
  | wrapped wrapper _ _ _ hxs =>
    obtain ⟨-, ht⟩ := List.forall_mem_append.mp ht
    obtain ⟨ht, -⟩ := List.forall_mem_append.mp ht
    cases wrapper with
    | quoted style roles =>
      refine fresh_singleton trivial rfl (List.forall_mem_cons.mpr ⟨hxs ht, ?_⟩)
      rw [sequencesOf_roleAttributes]
      exact fun s hs => absurd hs List.not_mem_nil
    | quotation mark =>
      exact fresh_singleton trivial rfl (List.forall_mem_singleton.mpr (hxs ht))
  | link _ hscheme hargs =>
    obtain ⟨-, ht⟩ := List.forall_mem_append.mp ht
    obtain ⟨-, ht⟩ := List.forall_mem_append.mp ht
    obtain ⟨hpath, ht⟩ := List.forall_mem_append.mp ht
    refine fresh_singleton hscheme rfl (List.forall_mem_cons.mpr ⟨fresh_content hpath, ?_⟩)
    exact fun s hs => hargs.fresh ht s (mem_sequencesOf_ofList hs)
  | image _ hstrings =>
    obtain ⟨-, ht⟩ := List.forall_mem_append.mp ht
    obtain ⟨hpath, -⟩ := List.forall_mem_append.mp ht
    have hdirectory : Clean (options.imagesDirectory.getD "") := by
      cases hd : options.imagesDirectory with
      | none => exact clean_empty
      | some directory => exact hoptions directory hd
    refine fresh_singleton trivial rfl (List.forall_mem_cons.mpr ⟨?_, fun s hs => ?_⟩)
    · exact fresh_path_below hdirectory (fresh_content hpath)
    · rw [sequencesOf_onlyStrings hstrings] at hs
      cases hs
  | icon _ hstrings =>
    exact fresh_leaf trivial rfl (sequencesOf_onlyStrings hstrings)
  | documentReference =>
    obtain ⟨-, ht⟩ := List.forall_mem_append.mp ht
    obtain ⟨hpath, ht⟩ := List.forall_mem_append.mp ht
    obtain ⟨-, ht⟩ := List.forall_mem_append.mp ht
    obtain ⟨hlabel, -⟩ := List.forall_mem_append.mp ht
    refine fresh_singleton trivial rfl (List.forall_mem_cons.mpr ⟨fresh_content hpath, ?_⟩)
    exact List.forall_mem_singleton.mpr (fresh_content hlabel)
  | footnote reference _ _ hxs =>
    obtain ⟨-, ht⟩ := List.forall_mem_append.mp ht
    obtain ⟨-, ht⟩ := List.forall_mem_append.mp ht
    obtain ⟨-, ht⟩ := List.forall_mem_append.mp ht
    obtain ⟨ht, -⟩ := List.forall_mem_append.mp ht
    exact fresh_singleton trivial rfl (List.forall_mem_singleton.mpr (hxs ht))
  | indexTerm =>
    obtain ⟨-, ht⟩ := List.forall_mem_append.mp ht
    obtain ⟨ht, -⟩ := List.forall_mem_append.mp ht
    exact fresh_singleton trivial rfl (List.forall_mem_singleton.mpr (fresh_content ht))
  | hiddenIndexTerm => exact fresh_leaf trivial rfl rfl

namespace Fragment

variable {rule : Rule} {options : Options} {text : String} {parsed : List Element}

theorem fresh_read (hoptions : options.Clean) {glyphs : List Glyph}
    (hglyphs : ∀ g ∈ glyphs, g.Readable tokensAllowed) (rule : Rule) :
    Everywhere (Element.Fresh tokensAllowed) (read (construct options rule) glyphs) := by
  by_cases hrule : rule = .macros
  · subst hrule
    exact fresh_of_spells hoptions (spells_read yields_construct_macros glyphs) hglyphs
  · exact fresh_of_spells hoptions (spells_read (yields_construct hrule) glyphs) hglyphs

theorem fresh_parse (hoptions : options.Clean) (hrule : rule ≠ .attribution)
    (hglyphs : ∀ g ∈ scan text.toList, g.Readable tokensAllowed)
    (h : parse rule options text = .ok parsed) :
    Everywhere (Element.Fresh tokensAllowed) parsed := by
  rw [parse_eq_ok hrule h, fresh_merge]
  exact fresh_read hoptions hglyphs rule

theorem readable_scan_of_clean (h : Clean text) :
    ∀ g ∈ scan text.toList, g.Readable False := by
  rw [scan_of_clean h]
  intro g hg
  obtain ⟨c, hc, rfl⟩ := List.mem_map.mp hg
  exact fun he => h (he ▸ hc)

theorem tidy_parse (hoptions : options.Clean) (hrule : rule ≠ .attribution) (htext : Clean text)
    (h : parse rule options text = .ok parsed) : Everywhere Element.Tidy parsed := by
  refine (fresh_parse hoptions hrule (readable_scan_of_clean htext) h).mono fun x hx => ?_
  rcases hx with ⟨hfalse, -⟩ | ⟨hx, -⟩
  · exact hfalse.elim
  · exact hx

end Fragment

theorem textual_tidy : Textual Element.Tidy where
  merge := tidy_merge
  quoted _ _ := trivial
  quotation _ _ := trivial
  blankLine := trivial

namespace Pass

variable {rule : Rule} {options : Options} {lines : List Line} {line : Line}

theorem unforged_of_tidy (h : Everywhere Element.Tidy line) : Unforged line :=
  fun s hs => (everywhere_iff.mp h (.text s) hs).1

theorem tidy_of_reread (hoptions : options.Clean) (hrule : rule ≠ .attribution)
    (hlines : ∀ line ∈ lines, Everywhere Element.Tidy line)
    (h : reread Fragment.parse rule options lines = .ok line) : Everywhere Element.Tidy line := by
  have hreadable : ∀ g ∈ scan (serialized lines).toList, g.Readable True := by
    intro g hg
    cases g with
    | token digits => trivial
    | char c =>
      exact char_ne_reserved_of_mem_scan (fun line hline => unforged_of_tidy (hlines line hline)) hg
  refine everywhere_of_reread textual_tidy (fun _ => id) (fun x hx hevent => ?_)
    (fun s parsed hs => Fragment.tidy_parse hoptions hrule hs)
    (fun parsed => Fragment.fresh_parse hoptions hrule hreadable) hlines h
  rcases hx with ⟨-, n, rfl⟩ | ⟨htidy, hheld⟩
  · cases hevent
  · exact ⟨hheld, fun sequences => (Element.tidy_withChildren ..).mpr htidy⟩

end Pass

end Manuscript
