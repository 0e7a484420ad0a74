import Manuscript.Proofs.Rereading.Lines

namespace Manuscript

open Pending

def Location.textual (location : Location Element) : Location Element :=
  { location with path := location.path.filter (·.isText) }

namespace Element

def Bare : Element → Prop
  | .image _ attributes => attributes.contains "alt" = false
  | _ => False

def caption : Element → Element
  | .image location attributes =>
      if attributes.contains "alt" then .image location attributes
      else .image location (attributes.insert "alt" (.string location.textual.stem))
  | element => element

end Element

def captioned (elements : List Element) : List Element :=
  substituted (fun _ => (none : Option Empty)) (List.map Element.caption) Empty.elim elements

def Element.captioned (x : Element) : Element :=
  (x.withChildren (x.children.map Manuscript.captioned)).caption

theorem captioned_eq_map (elements : List Element) :
    captioned elements = elements.map Element.captioned := by
  rw [captioned, substituted_eq, List.map_map]
  rfl

@[simp] theorem captioned_nil : captioned [] = [] :=
  captioned_eq_map []

@[simp] theorem captioned_cons (x : Element) (xs : List Element) :
    captioned (x :: xs) = x.captioned :: captioned xs := by
  rw [captioned_eq_map, captioned_eq_map, List.map_cons]

section Entries

variable {name s : String} {entries : List (String × Value)} {ss : List (List Element)}

theorem sequencesOf_insertEntry (h : Dict.findEntry name entries = none) :
    sequencesOf (Dict.insertEntry name (.string s) entries) = sequencesOf entries := by
  induction entries with
  | nil => rfl
  | cons entry rest ih =>
    obtain ⟨n, value⟩ := entry
    rw [Dict.findEntry] at h
    split at h
    · cases h
    · next hne =>
      rw [Dict.insertEntry, if_neg (Ne.symm hne)]
      split
      · rfl
      · cases value <;> simp [sequencesOf, ih h]

theorem withSequences_insertEntry (h : Dict.findEntry name entries = none) :
    withSequences (Dict.insertEntry name (.string s) entries) ss =
      Dict.insertEntry name (.string s) (withSequences entries ss) := by
  induction entries generalizing ss with
  | nil => rfl
  | cons entry rest ih =>
    obtain ⟨n, value⟩ := entry
    rw [Dict.findEntry] at h
    split at h
    · cases h
    · next hne =>
      have hne' : name ≠ n := Ne.symm hne
      by_cases hlt : name < n
      · cases value <;> cases ss <;> simp [Dict.insertEntry, withSequences, hlt]
      · cases value <;> cases ss <;> simp [Dict.insertEntry, withSequences, hlt, hne', ih h]

theorem findEntry_withSequences_eq_none : Dict.findEntry name (withSequences entries ss) = none ↔
    Dict.findEntry name entries = none := by
  induction entries generalizing ss with
  | nil => rfl
  | cons entry rest ih =>
    obtain ⟨n, value⟩ := entry
    by_cases hn : n = name <;> cases value <;> cases ss <;>
      simp [withSequences, Dict.findEntry, hn, ih]

theorem contains_withSequences (attributes : Attributes) (name : String) (ss : List (List Element)) :
    Dict.contains ⟨withSequences attributes.entries ss⟩ name = attributes.contains name := by
  rw [Bool.eq_iff_iff, Dict.contains, Dict.contains, Option.isSome_iff_ne_none,
    Option.isSome_iff_ne_none]
  exact not_congr findEntry_withSequences_eq_none

end Entries

namespace Element

theorem placeholder?_withChildren (x : Element) (ss : List (List Element)) :
    placeholder? (x.withChildren ss) = placeholder? x := by
  fun_cases withChildren x ss <;> rfl

theorem isText_caption (x : Element) : x.caption.isText = x.isText := by
  fun_cases caption x <;> simp_all [isText]

theorem placeholder?_caption (x : Element) : placeholder? x.caption = placeholder? x := by
  fun_cases caption x <;> simp_all [placeholder?]

theorem children_caption (x : Element) : x.caption.children = x.children := by
  fun_cases caption x with
  | case1 => rfl
  | case2 location attributes halt =>
    exact congrArg (location.path :: ·) (sequencesOf_insertEntry (Option.not_isSome_iff_eq_none.mp halt))
  | case3 => rfl

theorem isText_captioned (x : Element) : x.captioned.isText = x.isText := by
  rw [captioned, isText_caption, isText_withChildren]

theorem placeholder?_captioned (x : Element) : placeholder? x.captioned = placeholder? x := by
  rw [captioned, placeholder?_caption, placeholder?_withChildren]

theorem children_captioned (x : Element) :
    x.captioned.children = x.children.map Manuscript.captioned := by
  rw [captioned, children_caption, children_withChildren (List.length_map ..)]

theorem captioned_text (s : String) : (text s).captioned = text s := rfl

theorem eq_text_of_captioned (x : Element) (s : String) (h : x.captioned = text s) : x = text s := by
  have htext := x.isText_captioned
  rw [h] at htext
  obtain ⟨t, rfl⟩ := eq_text_of_isText htext.symm
  exact h

theorem image_of_withChildren {x : Element} {ss : List (List Element)} {location : Location Element}
    {attributes : Attributes} (h : x.withChildren ss = image location attributes) :
    ∃ location' attributes', x = image location' attributes' := by
  revert h
  fun_cases withChildren x ss <;> intro h <;> first | exact ⟨_, _, rfl⟩ | exact ⟨_, _, h⟩ | cases h

theorem caption_withChildren {x : Element} {ss : List (List Element)}
    (h : ss.map (·.filter (·.isText)) = x.children.map (·.filter (·.isText))) :
    x.caption.withChildren ss = (x.withChildren ss).caption := by
  have hlength : ss.length = x.children.length := by simpa using congrArg List.length h
  fun_cases caption x with
  | case1 location attributes halt =>
    obtain ⟨path, rest, rfl⟩ := List.exists_cons_of_length_eq_add_one hlength
    have hcontains := contains_withSequences attributes "alt" rest
    rw [withChildren, caption, if_pos (hcontains.trans halt)]
  | case2 location attributes halt =>
    obtain ⟨path, rest, rfl⟩ := List.exists_cons_of_length_eq_add_one hlength
    have hcontains := contains_withSequences attributes "alt" rest
    have htexts : path.filter (·.isText) = location.path.filter (·.isText) := (List.cons.inj h).1
    have hnone : Dict.findEntry "alt" attributes.entries = none :=
      Option.not_isSome_iff_eq_none.mp halt
    have htextual : Location.textual { location with path } = location.textual := by
      rw [Location.textual, Location.textual, htexts]
    rw [withChildren, withChildren, caption, if_neg (by rwa [hcontains]), htextual, Dict.insert,
      withSequences_insertEntry hnone]
    rfl
  | case3 x hx =>
    rw [caption.eq_2]
    intro location attributes himage
    obtain ⟨location', attributes', rfl⟩ := image_of_withChildren himage
    exact hx _ _ rfl

end Element

theorem filter_isText_map {f : Element → Element} (hsame : ∀ s, f (.text s) = .text s)
    (htext : ∀ x, (f x).isText = x.isText) (xs : List Element) :
    (xs.map f).filter (·.isText) = xs.filter (·.isText) := by
  induction xs with
  | nil => rfl
  | cons x xs ih =>
    rw [List.map_cons, List.filter_cons, List.filter_cons, ih, htext]
    cases hx : x.isText with
    | false => rfl
    | true =>
      obtain ⟨s, rfl⟩ := eq_text_of_isText hx
      rw [hsame]

theorem filter_isText_captioned (xs : List Element) :
    (captioned xs).filter (·.isText) = xs.filter (·.isText) := by
  rw [captioned_eq_map]
  exact filter_isText_map Element.captioned_text Element.isText_captioned xs

theorem captioned_append (xs ys : List Element) :
    captioned (xs ++ ys) = captioned xs ++ captioned ys := by
  simp only [captioned_eq_map, List.map_append]

theorem captioned_merge (xs : List Element) : captioned (merge xs) = merge (captioned xs) := by
  rw [captioned_eq_map, captioned_eq_map, map_merge Element.captioned_text Element.eq_text_of_captioned]

theorem Element.captioned_withChildren {x : Element} {ss : List (List Element)}
    (h : ss.length = x.children.length) :
    (x.withChildren ss).captioned = (x.withChildren (ss.map Manuscript.captioned)).caption := by
  rw [captioned, children_withChildren h, withChildren_withChildren h (by simpa using h)]

theorem Element.withChildren_captioned {x : Element} {ss : List (List Element)}
    (h : ss.map (·.filter (·.isText)) = x.children.map (·.filter (·.isText))) :
    x.captioned.withChildren ss = (x.withChildren ss).caption := by
  have hlength : ss.length = x.children.length := by simpa using congrArg List.length h
  have hmapped : (x.children.map Manuscript.captioned).length = x.children.length := List.length_map ..
  rw [captioned, caption_withChildren, withChildren_withChildren hmapped hlength]
  rw [children_withChildren hmapped, h, List.map_map]
  exact List.map_congr_left fun s _ => (filter_isText_captioned s).symm

theorem references_captioned (xs : List Element) : references (captioned xs) = references xs := by
  induction xs using sequence_induction with
  | step xs ih =>
    rw [captioned_eq_map, references, references, gather_eq, gather_eq, List.flatMap_map]
    refine congrArg List.flatten (List.map_congr_left fun x hx => ?_)
    rw [Element.gather, Element.gather, x.placeholder?_captioned, x.children_captioned,
      List.flatMap_map]
    cases placeholder? x with
    | some reference => rfl
    | none => exact congrArg List.flatten (List.map_congr_left fun s hs => ih x hx s hs)

section PutBack

variable {original : UInt32 → Element}

theorem filter_isText_putBack (h : ∀ reference, (original reference).isText = false)
    (xs : List Element) : (putBack original xs).filter (·.isText) = xs.filter (·.isText) := by
  rw [putBack_eq_map]
  refine filter_isText_map (fun _ => rfl) (fun x => ?_) xs
  rw [Element.refilled]
  cases hplaceholder : placeholder? x with
  | some reference =>
    have htext : x.isText = false := by cases x <;> first | rfl | cases hplaceholder
    exact (h reference).trans htext.symm
  | none => exact x.isText_withChildren _

theorem captioned_putBack (h : ∀ reference, (original reference).isText = false)
    (xs : List Element) : captioned (putBack original xs) =
      putBack (fun reference => (original reference).captioned) (captioned xs) := by
  induction xs using sequence_induction with
  | step xs ih =>
    rw [putBack_eq_map, putBack_eq_map, captioned_eq_map, captioned_eq_map, List.map_map, List.map_map]
    refine List.map_congr_left fun x hx => ?_
    rw [Function.comp, Function.comp, Element.refilled, Element.refilled, x.placeholder?_captioned]
    cases placeholder? x with
    | some reference => rfl
    | none =>
      have hchildren : x.captioned.children.map
          (putBack fun reference => (original reference).captioned) =
            (x.children.map (putBack original)).map captioned := by
        rw [x.children_captioned, List.map_map, List.map_map]
        exact List.map_congr_left fun s hs => (ih x hx s hs).symm
      have htexts : ((x.children.map (putBack original)).map captioned).map (·.filter (·.isText)) =
          x.children.map (·.filter (·.isText)) := by
        rw [List.map_map, List.map_map]
        exact List.map_congr_left fun s _ =>
          (filter_isText_captioned _).trans (filter_isText_putBack h s)
      change (x.withChildren _).captioned = x.captioned.withChildren _
      rw [hchildren, Element.withChildren_captioned htexts,
        Element.captioned_withChildren (List.length_map ..)]

end PutBack

section Split

theorem captioned_fragment (s : String) : captioned (fragment s) = fragment s := by
  rw [captioned_eq_map, fragment]
  split <;> rfl

theorem map_captioned_prependTo (start : Line) (lines : List Line) :
    (prependTo start lines).map captioned = prependTo (captioned start) (lines.map captioned) := by
  cases lines with
  | nil => rfl
  | cons line rest => rw [prependTo, List.map_cons, captioned_append, List.map_cons, prependTo]

theorem map_captioned_joinLines (lines after : List Line) :
    (joinLines lines after).map captioned =
      joinLines (lines.map captioned) (after.map captioned) := by
  fun_induction joinLines lines after with
  | case1 after => rfl
  | case2 line after => exact map_captioned_prependTo line _
  | case3 after line rest hne ih =>
    rw [List.map_cons, List.map_cons, ih, joinLines.eq_3 _ _ _ (by simpa using hne)]

theorem splitLine_captioned (line : Line) :
    splitLine (captioned line) = (splitLine line).map captioned := by
  induction line with
  | nil =>
    rw [captioned_nil, splitLine, List.map_singleton, captioned_nil]
  | cons x rest ih =>
    rw [captioned_cons]
    cases htext : x.isText with
    | true =>
      obtain ⟨s, rfl⟩ := eq_text_of_isText htext
      have hfragments : ((Text.splitOn '\n' s).map fragment).map captioned =
          (Text.splitOn '\n' s).map fragment := by
        rw [List.map_map]
        exact List.map_congr_left fun t _ => captioned_fragment t
      rw [Element.captioned_text, splitLine, splitLine, ih, map_captioned_joinLines, hfragments]
    | false =>
      have htext' : x.captioned.isText = false := x.isText_captioned.trans htext
      rw [splitLine.eq_3 _ _ (ne_text_of_not_isText htext),
        splitLine.eq_3 _ _ (ne_text_of_not_isText htext'), ih, map_captioned_prependTo,
        captioned_cons, captioned_nil]

end Split

section Plain

theorem Element.plain_caption (x : Element) : x.caption.plain = x.plain := by
  fun_cases caption x <;> rfl

theorem plainText_captioned (xs : List Element) : plainText (captioned xs) = plainText xs := by
  induction xs using sequence_induction with
  | step xs ih =>
    have hplain (x : Element) (hx : x ∈ xs) : x.captioned.plain = x.plain := by
      rw [Element.captioned, Element.plain_caption]
      have hchildren := ih x hx
      cases x <;> simp_all [Element.withChildren, Element.children, Element.plain]
    clear ih
    induction xs with
    | nil => rw [captioned_nil]
    | cons x rest ih =>
      obtain ⟨hx, hrest⟩ := List.forall_mem_cons.mp hplain
      rw [captioned_cons, plainText, plainText, hx, ih hrest]

end Plain

end Manuscript
