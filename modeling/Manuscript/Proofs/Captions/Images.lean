import Manuscript.Proofs.Captions.Reading

namespace Manuscript

open Glyph Reader Pending

section Bare

theorem Element.caption_of_not_bare {x : Element} (h : ¬ x.Bare) : x.caption = x := by
  fun_cases caption x with
  | case1 => rfl
  | case2 location attributes halt => exact absurd (Bool.eq_false_iff.mpr halt) h
  | case3 => rfl

theorem Element.captioned_of_throughout {x : Element} (h : x.Throughout (¬ ·.Bare))
    (hchildren : ∀ s ∈ x.children, Manuscript.captioned s = s) : x.captioned = x := by
  rw [captioned, List.map_congr_left hchildren, List.map_id', withChildren_children,
    caption_of_not_bare h.1]

theorem captioned_of_everywhere {xs : List Element} (h : Everywhere (¬ ·.Bare) xs) :
    captioned xs = xs := by
  induction xs using sequence_induction with
  | step xs ih =>
    rw [captioned_eq_map, List.map_congr_left, List.map_id]
    intro x hx
    have hx' := everywhere_iff.mp h x hx
    exact Element.captioned_of_throughout hx' fun s hs => ih x hx s hs (hx'.2.1 s hs)

theorem Element.captioned_of_singleton {x : Element} (h : Everywhere (¬ ·.Bare) [x]) :
    x.captioned = x :=
  captioned_of_throughout (everywhere_singleton.mp h) fun s hs =>
    captioned_of_everywhere ((everywhere_singleton.mp h).2.1 s hs)

theorem Rule.not_bare_of_makes {rule : Rule} (hrule : rule ≠ .macros) {x : Element}
    (h : rule.Makes x) : ¬ x.Bare := by
  cases x <;> first | exact id | (cases rule <;> first | exact absurd rfl hrule | cases h)

end Bare

namespace Reader

variable {α β : Type} {r : Reader α} {Q : List Glyph → α → Prop}

theorem bind_congr_of_yields (h : r.Yields Q) {f g : α → Reader β}
    (hfg : ∀ t a, Q t a → f a = g a) : r >>= f = r >>= g := by
  refine ext_run fun glyphs => ?_
  rw [run_bind, run_bind]
  cases hrun : r.run glyphs with
  | none => rfl
  | some found =>
    obtain ⟨t, -, hq⟩ := h glyphs found.1 found.2 hrun
    rw [Option.bind_some, Option.bind_some, hfg t found.1 hq]

theorem map_of_yields {r : Reader α} {f : α → α} (h : r.Yields fun _ a => f a = a) : f <$> r = r := by
  have hbind : r >>= (fun a => pure (f a)) = r >>= pure :=
    bind_congr_of_yields h fun _ a ha => congrArg pure ha
  rwa [bind_pure_comp, bind_pure] at hbind

end Reader

namespace Macro

def bareImage (options : Options) : Reader Element := do
  literal "image:"
  ahead fun glyphs => !headIs (· == ':') glyphs
  let path ← path
  let arguments ← arguments
  let location := Location.below (options.imagesDirectory.getD "") ⟨"", path⟩
  return .image location (Dict.ofList (entries ["alt", "width", "height"] 1 arguments))

def anyBare (options : Options) : Reader Element :=
  firstOf (bareImage options :: withoutImage)

theorem covers_not_bare : Covers (¬ ·.Bare) where
  text _ := id
  placeholder _ := id
  link _ _ _ := id
  icon _ _ _ := id
  crossReference _ _ := id
  documentReference _ _ _ := id
  footnote _ _ _ := id
  indexTerm _ _ := id
  hiddenIndexTerm _ _ _ := id

theorem map_captioned_withoutImage :
    withoutImage.map (Element.captioned <$> ·) = withoutImage := by
  rw [List.map_congr_left, List.map_id]
  intro r hr
  exact map_of_yields ((covers_not_bare.yields_withoutImage r hr).mono fun _ _ =>
    Element.captioned_of_singleton)

section Image

variable {location : Location Element} {as : List Argument}

theorem stem_textual (h : Everywhere Rule.plain.Makes location.path) :
    location.textual.stem = location.stem := by
  have hplain : ∀ x ∈ location.path, x.isText = true ∨ x.plain = "" := by
    intro x hx
    have hmakes := (everywhere_iff.mp h x hx).1
    cases x <;> first | exact .inl rfl | exact .inr rfl | cases hmakes
  have hfilter : plainText (location.path.filter (·.isText)) = plainText location.path := by
    clear h
    generalize location.path = path at hplain ⊢
    induction path with
    | nil => rfl
    | cons x rest ih =>
      obtain ⟨hx, hrest⟩ := List.forall_mem_cons.mp hplain
      rw [List.filter_cons, plainText]
      split
      · rw [plainText, ih hrest]
      · next htext => rw [hx.resolve_left htext, String.empty_append, ih hrest]
  rw [Location.stem, Location.url, Location.textual, hfilter]
  rfl

theorem captioned_bareImage (h : Everywhere Rule.plain.Makes location.path)
    (has : ∀ a ∈ as, a.HoldsString) :
    (Element.image location (Dict.ofList (entries ["alt", "width", "height"] 1 as))).captioned =
      .image location (imageAttributes location as) := by
  have hstrings := onlyStrings_ofList (onlyStrings_entries ["alt", "width", "height"] 1 has)
  have hpath : captioned location.path = location.path :=
    captioned_of_everywhere (h.mono fun _ => Rule.not_bare_of_makes (by decide))
  have hchildren : (Element.image location (Dict.ofList (entries ["alt", "width", "height"] 1
      as))).children = [location.path] := by
    rw [Element.children, sequencesOf_onlyStrings hstrings]
  rw [Element.captioned, hchildren, List.map_singleton, hpath, ← hchildren,
    Element.withChildren_children, Element.caption, imageAttributes, stem_textual h]
  split <;> rfl

theorem map_captioned_bareImage (options : Options) :
    Element.captioned <$> bareImage options = image options := by
  simp only [bareImage, image, map_bind, map_pure]
  refine congrArg _ (funext fun _ => congrArg _ (funext fun _ => ?_))
  refine bind_congr_of_yields yields_path fun t path hpath => ?_
  refine bind_congr_of_yields yields_arguments fun u as ⟨_, has⟩ => ?_
  have hplain : Everywhere Rule.plain.Makes path :=
    hpath ▸ everywhere_content (Rule.makes_text _) (Rule.makes_placeholder _) t
  have hbelow : Everywhere Rule.plain.Makes
      (Location.below (options.imagesDirectory.getD "") ⟨"", path⟩).path :=
    everywhere_path_below (Rule.makes_text_append _) (Rule.makes_text _ _) (Rule.makes_text _ _)
      hplain
  rw [captioned_bareImage hbelow has]

end Image

theorem map_captioned_anyBare (options : Options) :
    Element.captioned <$> anyBare options = any Dict.ofList options := by
  rw [anyBare, any_eq_firstOf, map_firstOf, List.map_cons, map_captioned_bareImage,
    map_captioned_withoutImage]

end Macro

namespace Fragment

def parseBare : Grammar := fun rule options text =>
  match rule with
  | .macros =>
      match outOfRange? .macros 0 (scan text.toList) with
      | some cause => .error (.of cause)
      | none =>
          .ok (merge (read (Construct.single (Macro.anyBare options)) (scan text.toList)))
  | rule => parse rule options text

theorem parseBare_of_ne {rule : Rule} (hrule : rule ≠ .macros) : parseBare rule = parse rule := by
  funext options text
  rw [parseBare.eq_2 _ _ _ hrule]

theorem parse_eq_map_captioned (rule : Rule) (options : Options) (text : String) :
    parse rule options text = (parseBare rule options text).map captioned := by
  by_cases hrule : rule = .macros
  · subst hrule
    rw [parse.eq_2 _ _ _ (by decide), parseBare]
    cases outOfRange? .macros 0 (scan text.toList) with
    | some cause => rfl
    | none =>
      have hread : read (construct options .macros) (scan text.toList) =
          captioned (read (Construct.single (Macro.anyBare options)) (scan text.toList)) := by
        rw [construct, ← Macro.map_captioned_anyBare, map_single, read_map Element.captioned_text
          (fun _ => rfl), captioned_eq_map]
      change Except.ok (merge (read _ _)) = Except.ok (captioned (merge _))
      rw [hread, captioned_merge]
  · rw [parseBare_of_ne hrule]
    cases hparsed : parse rule options text with
    | error fault => rfl
    | ok parsed =>
      exact congrArg Except.ok (captioned_of_everywhere ((makes_parse hparsed).mono fun _ =>
        Rule.not_bare_of_makes hrule)).symm

end Fragment

end Manuscript
