import Manuscript.Proofs.Everywhere

namespace Manuscript

theorem pushText_empty (elements : List Element) : pushText "" elements = elements := by
  unfold pushText
  split
  · rw [String.empty_append]
  · rfl

theorem pushText_pushText (s t : String) (elements : List Element) :
    pushText s (pushText t elements) = pushText (s ++ t) elements := by
  rw [pushText.eq_def t, pushText.eq_def (s ++ t)]
  split
  · rw [pushText, String.append_assoc]
  · split
    · next ht => rw [ht, String.append_empty, pushText.eq_2 _ _ ‹_›]
    · next ht =>
      rw [pushText, if_neg fun he => ht (String.append_eq_empty_iff.mp he).2]

theorem merge_pushText_append (s : String) (xs ys : List Element) :
    merge (pushText s xs ++ ys) = pushText s (merge (xs ++ ys)) := by
  rw [pushText.eq_def s xs]
  split
  · rw [List.cons_append, List.cons_append, merge, merge, pushText_pushText]
  · split
    · next hs => rw [hs, pushText_empty]
    · rw [List.cons_append, merge]

theorem merge_append_left (xs ys : List Element) : merge (merge xs ++ ys) = merge (xs ++ ys) := by
  fun_induction merge xs with
  | case1 => rfl
  | case2 s rest ih => rw [merge_pushText_append, ih, List.cons_append, merge]
  | case3 x rest hno ih =>
    rw [List.cons_append, List.cons_append, merge.eq_3 _ _ hno, merge.eq_3 _ _ hno, ih]

theorem merge_append_congr {xs xs' ys ys' : List Element} (hxs : merge xs = merge xs')
    (hys : merge ys = merge ys') : merge (xs ++ ys) = merge (xs' ++ ys') := by
  have hright (xs : List Element) : merge (xs ++ ys) = merge (xs ++ ys') := by
    fun_induction merge xs with
    | case1 => exact hys
    | case2 s rest ih => rw [List.cons_append, List.cons_append, merge, merge, ih]
    | case3 x rest hno ih =>
      rw [List.cons_append, List.cons_append, merge.eq_3 _ _ hno, merge.eq_3 _ _ hno, ih]
  rw [hright, ← merge_append_left xs, hxs, merge_append_left]

theorem flatten_prependTo (start : Line) (lines : List Line) :
    (prependTo start lines).flatten = start ++ lines.flatten := by
  cases lines with
  | nil => simp [prependTo]
  | cons line rest => simp [prependTo]

theorem flatten_joinLines (before after : List Line) :
    (joinLines before after).flatten = before.flatten ++ after.flatten := by
  fun_induction joinLines before after with
  | case1 after => rfl
  | case2 after line => simp [flatten_prependTo]
  | case3 after line rest _ ih => rw [List.flatten_cons, ih, List.flatten_cons, List.append_assoc]

section Gather

variable {ε : Type} {event? : Element → Option ε}

theorem gather_text_cons (htext : ∀ s, event? (.text s) = none) (s : String)
    (rest : List Element) : gather event? (.text s :: rest) = gather event? rest := by
  rw [gather_cons, Element.gather, htext]
  rfl

theorem gather_pushText (htext : ∀ s, event? (.text s) = none) (s : String)
    (elements : List Element) : gather event? (pushText s elements) = gather event? elements := by
  unfold pushText
  split
  · rw [gather_text_cons htext, gather_text_cons htext]
  · split
    · rfl
    · exact gather_text_cons htext ..

theorem gather_merge (htext : ∀ s, event? (.text s) = none) (elements : List Element) :
    gather event? (merge elements) = gather event? elements := by
  fun_induction merge elements with
  | case1 => rfl
  | case2 s rest ih => rw [gather_pushText htext, ih, gather_text_cons htext]
  | case3 element rest _ ih => rw [gather_cons, ih, gather_cons]

theorem gather_fragment (htext : ∀ s, event? (.text s) = none) (s : String) :
    gather event? (fragment s) = [] := by
  rw [fragment]
  split
  · exact gather_nil ..
  · rw [gather_text_cons htext, gather_nil]

theorem gather_splitLine (htext : ∀ s, event? (.text s) = none) (line : Line) :
    gather event? (splitLine line).flatten = gather event? line := by
  fun_induction splitLine line with
  | case1 => rfl
  | case2 s rest ih =>
    have hparts (parts : List String) : gather event? (parts.map fragment).flatten = [] := by
      induction parts with
      | nil => exact gather_nil ..
      | cons part parts ih =>
        rw [List.map_cons, List.flatten_cons, gather_append, gather_fragment htext, ih]
        rfl
    rw [flatten_joinLines, gather_append, hparts, ih, gather_text_cons htext]
    rfl
  | case3 element rest _ ih =>
    rw [flatten_prependTo, gather_append, ih, gather_cons, gather_cons, gather_nil,
      List.append_nil]

theorem gather_splitLines (htext : ∀ s, event? (.text s) = none) (lines : List Line) :
    gather event? (splitLines lines).flatten = gather event? lines.flatten := by
  induction lines with
  | nil => rfl
  | cons line rest ih =>
    rw [splitLines, List.flatMap_cons, List.flatten_append, gather_append, gather_splitLine htext,
      List.flatten_cons, gather_append]
    exact congrArg _ ih

end Gather

section Joined

variable {P : Line → Prop} {start : Line} {lines before after : List Line}

theorem forall_mem_prependTo (hstart : P start)
    (happend : ∀ line ∈ lines.head?, P line → P (start ++ line)) (h : ∀ line ∈ lines, P line) :
    ∀ line ∈ prependTo start lines, P line := by
  cases lines with
  | nil => exact List.forall_mem_singleton.mpr hstart
  | cons line rest =>
    obtain ⟨hline, hrest⟩ := List.forall_mem_cons.mp h
    exact List.forall_mem_cons.mpr ⟨happend line rfl hline, hrest⟩

theorem forall_mem_joinLines
    (happend : ∀ start, P start → ∀ line ∈ after.head?, P line → P (start ++ line))
    (hbefore : ∀ line ∈ before, P line) (hafter : ∀ line ∈ after, P line) :
    ∀ line ∈ joinLines before after, P line := by
  fun_induction joinLines before after with
  | case1 after => exact hafter
  | case2 line after =>
    have hline := List.forall_mem_singleton.mp hbefore
    exact forall_mem_prependTo hline (happend line hline) hafter
  | case3 line rest after _ ih =>
    obtain ⟨hline, hrest⟩ := List.forall_mem_cons.mp hbefore
    exact List.forall_mem_cons.mpr ⟨hline, ih happend hrest hafter⟩

end Joined

section Around

variable {ε : Type} {event? : Element → Option ε} {p : Element → Prop} {lines : List Line}
  {line start : Line}

theorem around_prependTo (hstart : Around p event? start)
    (h : ∀ line ∈ lines, Around p event? line) :
    ∀ line ∈ prependTo start lines, Around p event? line :=
  forall_mem_prependTo hstart (fun _ _ hline => around_append.mpr ⟨hstart, hline⟩) h

theorem around_joinLines {before after : List Line}
    (hbefore : ∀ line ∈ before, Around p event? line)
    (hafter : ∀ line ∈ after, Around p event? line) :
    ∀ line ∈ joinLines before after, Around p event? line :=
  forall_mem_joinLines (fun _ hstart _ _ hline => around_append.mpr ⟨hstart, hline⟩) hbefore hafter

theorem everywhere_fragment {s : String} (h : p (.text s)) : Everywhere p (fragment s) := by
  rw [fragment]
  split
  · exact everywhere_nil
  · exact everywhere_singleton.mpr (throughout_text.mpr h)

variable (htext : ∀ s, event? (.text s) = none)
  (hpart : ∀ s part, p (.text s) → part ∈ Text.splitOn '\n' s → p (.text part))
include htext hpart

theorem around_splitLine (h : Around p event? line) :
    ∀ after ∈ splitLine line, Around p event? after := by
  fun_induction splitLine line with
  | case1 => exact List.forall_mem_singleton.mpr around_nil
  | case2 s rest ih =>
    obtain ⟨hs, hrest⟩ := (around_text_cons htext).mp h
    refine around_joinLines (List.forall_mem_map.mpr fun part hmem => ?_) (ih hrest)
    exact (everywhere_fragment (hpart s part hs hmem)).around
  | case3 x rest _ ih =>
    obtain ⟨hx, hrest⟩ := around_cons.mp h
    exact around_prependTo hx (ih hrest)

theorem around_splitLines (h : ∀ line ∈ lines, Around p event? line) :
    ∀ line ∈ splitLines lines, Around p event? line :=
  List.forall_mem_flatMap.mpr fun line hline => around_splitLine htext hpart (h line hline)

end Around

theorem everywhere_splitLines {p : Element → Prop} {lines : List Line}
    (hpart : ∀ s part, p (.text s) → part ∈ Text.splitOn '\n' s → p (.text part))
    (h : ∀ line ∈ lines, Everywhere p line) : ∀ line ∈ splitLines lines, Everywhere p line := by
  simp only [everywhere_iff_around_none] at h ⊢
  exact around_splitLines (fun _ => rfl) hpart h

end Manuscript
