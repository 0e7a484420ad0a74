import Manuscript.Proofs.Escaping.Counters
import Manuscript.Proofs.Merged

namespace Manuscript

open Pending

variable {x : Element} {xs : List Element} {s : String}

def textsAround (xs : List Element) : List String :=
  (xs.splitOnP (!·.isText)).map plainText

def interleave : List String → List Element → List Element
  | t :: ts, x :: xs => fragment t ++ x :: interleave ts xs
  | t :: _, [] => fragment t
  | [], xs => xs

section Around

theorem textsAround_ne_nil (xs : List Element) : textsAround xs ≠ [] :=
  fun h => List.splitOnP_ne_nil _ xs (List.map_eq_nil_iff.mp h)

theorem textsAround_text (s : String) (xs : List Element) :
    textsAround (.text s :: xs) = (textsAround xs).modifyHead (s ++ ·) := by
  rw [textsAround, List.splitOnP_cons_eq_if_modifyHead, if_neg (by simp [Element.isText]), textsAround]
  obtain ⟨piece, pieces, hpieces⟩ := List.exists_cons_of_ne_nil (List.splitOnP_ne_nil (!·.isText) xs)
  rw [hpieces]
  rfl

theorem textsAround_cons (hx : x.isText = false) (xs : List Element) :
    textsAround (x :: xs) = "" :: textsAround xs := by
  rw [textsAround, List.splitOnP_cons_eq_if_modifyHead, if_pos (by rw [hx]; rfl)]
  rfl

theorem textsAround_pushText (s : String) (xs : List Element) :
    textsAround (pushText s xs) = (textsAround xs).modifyHead (s ++ ·) := by
  unfold pushText
  split
  · simp [textsAround_text, Function.comp_def, String.append_assoc]
  · split
    · next hs =>
      have hsame : ("" ++ ·) = (id : String → String) := funext fun t => String.empty_append
      rw [hs, hsame, List.modifyHead_id, id]
    · exact textsAround_text s _

theorem textsAround_merge (xs : List Element) : textsAround (merge xs) = textsAround xs := by
  fun_induction merge xs with
  | case1 => rfl
  | case2 s rest ih => rw [textsAround_pushText, ih, textsAround_text]
  | case3 x rest hnot ih =>
    have hx : x.isText = false := not_isText_of_ne hnot
    rw [textsAround_cons hx, ih, textsAround_cons hx]

example : textsAround [.text "a", .text "b", .lineBreak, .lineBreak, .text "c"] = ["ab", "", "c"] := by decide

def textsBetween (o : List (Option Char)) : List String :=
  (o.splitOnP (·.isNone)).map fun piece => String.ofList (piece.filterMap id)

theorem textsBetween_gap (o : List (Option Char)) : textsBetween (none :: o) = "" :: textsBetween o := by
  rw [textsBetween, List.splitOnP_cons_eq_if_modifyHead]
  rfl

theorem textsBetween_append (cs : List Char) (o : List (Option Char)) :
    textsBetween (cs.map some ++ o) = (textsBetween o).modifyHead (String.ofList cs ++ ·) := by
  obtain ⟨piece, pieces, hpieces⟩ := List.exists_cons_of_ne_nil (List.splitOnP_ne_nil (·.isNone) o)
  have hcut : (cs.map some ++ o).splitOnP (·.isNone) = (cs.map some ++ piece) :: pieces := by
    induction cs with
    | nil => exact hpieces
    | cons c cs ih =>
      rw [List.map_cons, List.cons_append, List.splitOnP_cons_eq_if_modifyHead, if_neg (by simp), ih]
      rfl
  rw [textsBetween, hcut, textsBetween, hpieces]
  simp [List.filterMap_append, String.ofList_append]

theorem textsBetween_outline (xs : List Element) : textsBetween (outline xs) = textsAround xs := by
  induction xs with
  | nil => rfl
  | cons x rest ih =>
    rw [outline_cons]
    cases hx : x.isText with
    | true =>
      obtain ⟨s, rfl⟩ := eq_text_of_isText hx
      rw [Element.outline, textsBetween_append, String.ofList_toList, ih, textsAround_text]
    | false =>
      rw [Element.outline_of_not_isText hx, List.singleton_append, textsBetween_gap, ih,
        textsAround_cons hx]

end Around

section Interleave

theorem pushText_fragment (s t : String) (h : ∀ y ∈ xs.head?, y.isText = false) :
    pushText s (fragment t ++ xs) = fragment (s ++ t) ++ xs := by
  by_cases hs : s = ""
  · rw [hs, pushText_empty, String.empty_append]
  by_cases ht : t = ""
  · subst ht
    rw [String.append_empty, fragment, if_pos rfl, fragment, if_neg hs]
    exact pushText_of_apart hs h
  · have hst : s ++ t ≠ "" := fun he => ht (String.append_eq_empty_iff.mp he).2
    rw [fragment, if_neg ht, fragment, if_neg hst]
    rfl

theorem pushText_interleave {ts : List String} (hts : ts ≠ []) (h : ∀ x ∈ xs, x.isText = false) :
    pushText s (interleave ts xs) = interleave (ts.modifyHead (s ++ ·)) xs := by
  obtain ⟨t, ts, rfl⟩ := List.exists_cons_of_ne_nil hts
  cases xs with
  | nil =>
    have hlone := @pushText_fragment [] s t fun _ => nofun
    rwa [List.append_nil, List.append_nil] at hlone
  | cons x xs =>
    exact pushText_fragment s t fun y hy => Option.some.inj hy ▸ h x List.mem_cons_self

theorem merge_eq_interleave (xs : List Element) :
    merge xs = interleave (textsAround xs) (xs.filter (!·.isText)) := by
  fun_induction merge xs with
  | case1 => rfl
  | case2 s rest ih =>
    have hothers : ∀ x ∈ rest.filter (!·.isText), x.isText = false := fun x hx => by
      simpa using (List.mem_filter.mp hx).2
    rw [ih, textsAround_text, pushText_interleave (textsAround_ne_nil rest) hothers]
    rfl
  | case3 x rest hnot ih =>
    have hx : x.isText = false := not_isText_of_ne hnot
    rw [textsAround_cons hx, List.filter_cons_of_pos (by rw [hx]; rfl), ih]
    rfl

theorem merge_congr {ys : List Element} (hothers : xs.filter (!·.isText) = ys.filter (!·.isText))
    (htexts : textsAround xs = textsAround ys) : merge xs = merge ys := by
  rw [merge_eq_interleave xs, hothers, htexts, ← merge_eq_interleave]

theorem merge_congr_outline {ys : List Element}
    (hothers : xs.filter (!·.isText) = ys.filter (!·.isText)) (h : outline xs = outline ys) :
    merge xs = merge ys :=
  merge_congr hothers (by rw [← textsBetween_outline, h, textsBetween_outline])

end Interleave

namespace Pending

theorem writeLine_text (s : String) (line : Line) :
    writeLine (.text s :: line) = (s ++ ·) <$> writeLine line := rfl

theorem writeLine_other (hx : x.isText = false) (line : Line) :
    writeLine (x :: line) = do
      modify (register x)
      let reference := (← get).last
      return token reference ++ (← writeLine line) :=
  writeLine.eq_3 x line (ne_text_of_not_isText hx)

theorem writeLine_pushText (s : String) (line : Line) :
    writeLine (pushText s line) = (s ++ ·) <$> writeLine line := by
  unfold pushText
  split
  · simp only [writeLine_text, Functor.map_map, String.append_assoc]
  · split
    · next hs => simp [hs]
    · exact writeLine_text s _

theorem writeLine_merge (line : Line) : writeLine (merge line) = writeLine line := by
  fun_induction merge line with
  | case1 => rfl
  | case2 s rest ih => rw [writeLine_pushText, ih, writeLine_text]
  | case3 x rest hnot ih =>
    have hx : x.isText = false := not_isText_of_ne hnot
    rw [writeLine_other hx, ih, writeLine_other hx]

theorem serialize_map_merge (lines : List Line) : serialize (lines.map merge) = serialize lines := by
  have hwritten : writeLine ∘ merge = writeLine := funext writeLine_merge
  rw [serialize, serialize, List.mapM_map, hwritten]

end Pending

/-- Merging finds the one form that all sequences share which have the same elements besides texts and the same
text around them, and whatever is made of the texts of a line is the same for that form. -/
theorem merge_canonical_form (xs ys : List Element) :
    (merge xs = merge ys ↔
      xs.filter (!·.isText) = ys.filter (!·.isText) ∧ textsAround xs = textsAround ys) ∧
    ((merge xs).filter (!·.isText) = xs.filter (!·.isText) ∧
      textsAround (merge xs) = textsAround xs ∧ Merged (merge xs)) ∧
    merge (merge xs) = merge xs ∧
    merge (xs ++ ys) = merge (merge xs ++ merge ys) ∧
    plainText (merge xs) = plainText xs ∧
    ∀ lines, serialize (lines.map merge) = serialize lines := by
  have hsame : merge (merge xs) = merge xs := (merged_merge xs).merge_eq
  have hsame' : merge (merge ys) = merge ys := (merged_merge ys).merge_eq
  refine ⟨⟨fun h => ?_, fun ⟨hothers, htexts⟩ => merge_congr hothers htexts⟩,
    ⟨filter_merge xs, textsAround_merge xs, merged_merge xs⟩, hsame,
    merge_append_congr hsame.symm hsame'.symm, plainText_merge xs, serialize_map_merge⟩
  rw [← filter_merge xs, h, filter_merge, ← textsAround_merge xs, h, textsAround_merge]
  exact ⟨rfl, rfl⟩

end Manuscript
