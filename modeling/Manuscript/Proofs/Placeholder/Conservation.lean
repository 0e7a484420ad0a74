import Manuscript.Proofs.Line
import Manuscript.Proofs.Markup.Fragment
import Manuscript.Proofs.Markup.Token

namespace Manuscript

open Glyph Pending

@[simp] theorem references_nil : references [] = [] :=
  gather_nil ..

theorem references_cons (element : Element) (rest : List Element) :
    references (element :: rest) =
      (match placeholder? element with
        | some reference => [reference]
        | none => element.children.flatMap references) ++ references rest := by
  rw [references, gather_cons, Element.gather]
  cases placeholder? element <;> rfl

@[simp] theorem references_append (xs ys : List Element) :
    references (xs ++ ys) = references xs ++ references ys :=
  gather_append ..

theorem references_of_children {element : Element} (h : placeholder? element = none) :
    references [element] = element.children.flatMap references := by
  rw [references_cons, h, references_nil, List.append_nil]

theorem references_of_leaf {element : Element} (h : placeholder? element = none)
    (hc : element.children = []) : references [element] = [] := by
  rw [references_of_children h, hc, List.flatMap_nil]

@[simp] theorem references_text_cons (s : String) (rest : List Element) :
    references (.text s :: rest) = references rest := by
  rw [references_cons]
  rfl

@[simp] theorem references_merge (elements : List Element) :
    references (merge elements) = references elements :=
  gather_merge (fun _ => rfl) elements

@[simp] theorem references_content (t : List Glyph) : references (content t) = tokens t := by
  rw [content, references_merge]
  induction t with
  | nil => exact references_nil
  | cons g t ih =>
    rw [List.map_cons, references_cons, ih]
    cases g <;> rfl

@[simp] theorem references_fragment (s : String) : references (fragment s) = [] :=
  gather_fragment (fun _ => rfl) s

@[simp] theorem references_path_below (directory : String) (location : Location Element) :
    references (Location.below directory location).path = references location.path := by
  rcases Location.below_cases directory location with h | h
  · rw [h]
  · rw [h, references_merge, references_text_cons]

theorem sequencesOf_onlyStrings {entries : List (String × Value)} (h : OnlyStrings entries) :
    sequencesOf entries = [] := by
  induction entries with
  | nil => rfl
  | cons entry rest ih =>
    obtain ⟨⟨s, hs⟩, hrest⟩ := List.forall_mem_cons.mp h
    obtain ⟨name, value⟩ := entry
    obtain rfl : value = .string s := hs
    exact ih hrest

theorem sequencesOf_roleAttributes (roles : Option (List String)) :
    sequencesOf (roleAttributes roles).entries = [] := by
  cases roles <;> rfl

theorem references_wrap (wrapper : Wrapper) (elements : List Element) :
    references [wrapper.wrap elements] = references elements := by
  have h : (wrapper.wrap elements).children = [elements] := by
    cases wrapper with
    | quoted style roles =>
      exact congrArg (elements :: ·) (sequencesOf_roleAttributes roles)
    | quotation mark => rfl
  have hnone : placeholder? (wrapper.wrap elements) = none := by
    cases wrapper <;> rfl
  rw [references_of_children hnone, h, List.flatMap_singleton]

theorem Macro.Arguments.references_eq {t : List Glyph} {entries : List (String × Value)}
    (h : Macro.Arguments t entries) : (sequencesOf entries).flatMap references = tokens t := by
  cases h with
  | absent => rfl
  | named hplain hstrings => rw [sequencesOf_onlyStrings hstrings, hplain.tokens_eq_nil]; rfl
  | textual hplain hstrings =>
    rw [sequencesOf, sequencesOf_onlyStrings hstrings]
    simp [hplain.tokens_eq_nil]

theorem tokens_preceded {separator : String} {t : Option (List Glyph)} (h : ∀ u ∈ t, Plain u) :
    tokens (preceded separator t) = [] := by
  cases t with
  | none => rfl
  | some u => simp [preceded, (h u rfl).tokens_eq_nil]

theorem Spells.references_eq {options : Options} {t : List Glyph} {xs : List Element}
    (h : Spells Dict.mk options t xs) : references xs = tokens t := by
  induction h with
  | nil => exact references_nil
  | append _ _ hxs hys => rw [references_append, tokens_append, hxs, hys]
  | merged _ hxs => rw [references_merge, hxs]
  | glyph g =>
    rw [references_cons, references_nil]
    cases g <;> rfl
  | text ht => rw [references_of_leaf rfl rfl, ht.tokens_eq_nil]
  | escaped ht => simp [ht.tokens_eq_nil]
  | passthrough shield ht =>
    rw [Construct.shielded, references_of_children rfl]
    simp [Element.children, ht.tokens_eq_nil]
  | callout => rw [references_of_leaf rfl rfl]; simp
  | special => rw [references_of_leaf rfl rfl, tokens_spell]
  | symbol => rw [references_of_leaf rfl rfl, tokens_spell]
  | lineBreak => rw [references_of_leaf rfl rfl, tokens_spell]
  | @crossReference id gap label hid hgap hlabel =>
    have hlast : tokens (preceded "," (label.map (gap ++ ·))) = [] := by
      refine tokens_preceded fun t ht => ?_
      obtain ⟨l, hl, rfl⟩ := Option.map_eq_some_iff.mp ht
      exact plain_append.mpr ⟨hgap, hlabel l hl⟩
    rw [references_of_leaf rfl rfl]
    simp [hid.tokens_eq_nil, hlast]
  | attributeReference hname =>
    rw [references_of_leaf rfl rfl]
    simp [hname.tokens_eq_nil]
  | counter hidden hname hstart =>
    rw [references_of_leaf rfl rfl]
    simp [hname.tokens_eq_nil, tokens_preceded hstart]
  | wrapped wrapper ho _ hc hxs =>
    rw [references_wrap, hxs]
    simp [ho.tokens_eq_nil, hc.tokens_eq_nil]
  | link ho _ hargs =>
    rw [references_of_children rfl]
    simp [Element.children, hargs.references_eq, ho.tokens_eq_nil]
  | image hargs hstrings =>
    rw [references_of_children rfl]
    simp [Element.children, sequencesOf_onlyStrings hstrings, hargs.tokens_eq_nil]
  | icon ht hstrings =>
    rw [references_of_children rfl]
    simp [Element.children, sequencesOf_onlyStrings hstrings, ht.tokens_eq_nil]
  | documentReference =>
    rw [references_of_children rfl]
    simp [Element.children]
  | footnote reference hname _ hxs =>
    rw [references_of_children rfl]
    simp [Element.children, Plain.tokens_eq_nil hname, hxs]
  | indexTerm =>
    rw [references_of_children rfl]
    simp [Element.children]
  | hiddenIndexTerm first second third ht =>
    rw [references_of_leaf rfl rfl, ht.tokens_eq_nil]

theorem keys_serialize (lines : List Line) :
    ((serialize lines).run empty).2.keys = numbers 1 (setAside lines).length := by
  have h := congrArg Prod.snd (runFrom_serialize lines)
  rw [runFrom_lift] at h
  exact (congrArg keys h).trans (List.map_fst_zip (by simp [numbers]))

theorem runFrom_restore_all {elements : List Element} {pending : Pending} {count : Nat}
    (few : count < UInt32.size) (hkeys : pending.keys = numbers 1 count)
    (h : ExactlyOnce count elements) :
    ∃ left, runFrom pending (restore elements) =
      (.ok (putBack pending.original elements), left) ∧ left.finish = .ok () := by
  obtain ⟨⟨distinct, known⟩, complete⟩ := (exactlyOnce_iff few).mp h
  rw [← hkeys] at known complete
  exact ⟨_, runFrom_restore distinct known, finish_without complete⟩

theorem exactlyOnce_of_references {elements : List Element} {count : Nat}
    (few : count < UInt32.size) (h : references elements = numbers 1 count) :
    ExactlyOnce count elements := by
  rw [ExactlyOnce, h, map_toNat_numbers (by omega)]

namespace Fragment

variable {rule : Rule} {options : Options} {text : String} {parsed : List Element}

theorem parse_of_inRange (hrule : rule ≠ .attribution)
    (h : outOfRange? rule 0 (scan text.toList) = none) :
    parse rule options text = .ok (merge (read (construct options rule) (scan text.toList))) := by
  rw [parse.eq_2 _ _ _ hrule, h]

theorem parse_eq_ok (hrule : rule ≠ .attribution) (h : parse rule options text = .ok parsed) :
    parsed = merge (read (construct options rule) (scan text.toList)) := by
  rw [parse.eq_2 _ _ _ hrule] at h
  split at h
  · cases h
  · exact (Except.ok.inj h).symm

theorem outOfRange?_eq_none {rule : Rule} (hrule : rule ≠ .callouts) {glyphs : List Glyph}
    (h : ∀ digits ∈ numerals glyphs, inRange digits) (offset : Nat) :
    outOfRange? rule offset glyphs = none := by
  induction glyphs generalizing offset with
  | nil => rfl
  | cons g glyphs ih =>
    cases g with
    | token digits =>
      obtain ⟨hdigits, hrest⟩ := List.forall_mem_cons.mp h
      rw [outOfRange?, if_pos hdigits, ih hrest]
    | char c =>
      have hrest : outOfRange? rule (offset + c.utf8Size) glyphs = none := ih h _
      rw [outOfRange?.eq_4 _ _ _ _ fun _ _ he => absurd he hrule, hrest]

theorem parse_of_clean {rule : Rule} (hcallouts : rule ≠ .callouts)
    (hattribution : rule ≠ .attribution) {text : String} (h : Clean text) (options : Options) :
    parse rule options text = .ok (merge (read (construct options rule) (spell text))) := by
  rw [← scan_of_clean h]
  refine parse_of_inRange hattribution (outOfRange?_eq_none hcallouts ?_ 0)
  rw [scan_of_clean h, spell, numerals_map_char]
  exact fun _ hd => absurd hd List.not_mem_nil

theorem parse_of_takesNone {rule : Rule} (hcallouts : rule ≠ .callouts)
    (hattribution : rule ≠ .attribution) {text : String} (hne : text ≠ "") (hclean : Clean text)
    {options : Options} (h : takesNone (construct options rule) (spell text)) :
    parse rule options text = .ok [.text text] := by
  have hchars : ∀ g ∈ spell text, ∃ c, g = .char c := List.forall_mem_map.mpr fun c _ => ⟨c, rfl⟩
  rw [parse_of_clean hcallouts hattribution hclean, merge_read_of_takesNone h,
    ← List.append_nil (spell text), content_append hchars, textOf_spell]
  exact congrArg Except.ok (if_neg hne)

theorem parse_serialized (hcallouts : rule ≠ .callouts) (hattribution : rule ≠ .attribution)
    {lines : List Line} (clean : ∀ line ∈ lines, Unforged line) (options : Options) :
    parse rule options (serialized lines) =
      .ok (merge (read (construct options rule) (scan (serialized lines).toList))) := by
  refine parse_of_inRange hattribution (outOfRange?_eq_none hcallouts (fun digits hd => ?_) 0)
  rw [numerals_scan_serialized clean] at hd
  obtain ⟨n, -, rfl⟩ := List.mem_map.mp hd
  exact inRange_digitsOf n

/-- Outside the macros, reading a serialized text gives back every number a single time and in
order, whatever was set aside and whatever the texts around it say. -/
theorem parse_serialized_conserves {rule : Rule} (hmacros : rule ≠ .macros)
    (hattribution : rule ≠ .attribution) (options : Options) {lines : List Line}
    (few : (setAside lines).length < UInt32.size) (clean : ∀ line ∈ lines, Unforged line)
    {parsed : List Element} (accepted : parse rule options (serialized lines) = .ok parsed) :
    references parsed = numbers 1 (setAside lines).length ∧
      ((serialize lines).run empty).2.keys = numbers 1 (setAside lines).length ∧
      ∀ pending : Pending, pending.keys = numbers 1 (setAside lines).length →
        ∃ left, runFrom pending (restore parsed) =
          (.ok (putBack pending.original parsed), left) ∧ left.finish = .ok () := by
  have hrefs : references parsed = numbers 1 (setAside lines).length := by
    rw [parse_eq_ok hattribution accepted, references_merge,
      (spells_read (yields_construct hmacros) _).references_eq, tokens_scan_serialized clean]
  exact ⟨hrefs, keys_serialize lines, fun pending hkeys =>
    runFrom_restore_all few hkeys (exactlyOnce_of_references few hrefs)⟩

theorem parse_conserves_adjacent_tokens :
    ∃ parsed, parse .quotes ⟨none⟩
        (serialized [[.text "*1", .lineBreak, .symbol "(C)", .text "2* _"]]) = .ok parsed ∧
      references parsed = [1, 2] := by
  have clean : ∀ line ∈ [[.text "*1", .lineBreak, .symbol "(C)", .text "2* _"]],
      Unforged line := by
    simp [Unforged]
    decide
  have accepted : parse .quotes ⟨none⟩
      (serialized [[.text "*1", .lineBreak, .symbol "(C)", .text "2* _"]]) = .ok _ :=
    parse_serialized (by decide) (by decide) clean ⟨none⟩
  have few : (setAside [[.text "*1", .lineBreak, .symbol "(C)", .text "2* _"]]).length <
      UInt32.size := by decide
  exact ⟨_, accepted,
    (parse_serialized_conserves (by decide) (by decide) ⟨none⟩ few clean accepted).1⟩

end Fragment

theorem Pass.reread_text {grammar : Grammar} {rule : Rule} {options : Options} {text : String}
    {parsed : List Element} (h : grammar rule options text = .ok parsed)
    (hnone : references parsed = []) :
    reread grammar rule options [[.text text]] = .ok (merge parsed) := by
  have htext : serialized [[.text text]] = text := by
    change "\n".intercalate [text ++ ""] = _
    rw [String.intercalate_singleton, String.append_empty]
  have hfew : (setAside [[.text text]]).length < UInt32.size := by
    change 0 < UInt32.size
    decide
  have honce : ExactlyOnce 0 parsed := by
    rw [ExactlyOnce, hnone]
    exact .nil
  rw [reread_eq_ok hfew rfl (htext.symm ▸ h) honce, putBack, substituted_of_gather_eq_nil _ hnone]

end Manuscript
