import Manuscript.Text.Field

namespace Manuscript.Text

def singleSpaced : List Char → List Char
  | [] => []
  | c :: cs =>
      if isBlank c then
        if cs.head?.any isBlank then singleSpaced cs else ' ' :: singleSpaced cs
      else c :: singleSpaced cs

def wordsOf (cs : List Char) : List (List Char) :=
  (fields isBlank cs).filter (!·.isEmpty)

def IsWord (cs : List Char) : Prop :=
  cs ≠ [] ∧ ∀ c ∈ cs, isBlank c = false

def spaced (ws : List (List Char)) : List Char :=
  ws.flatMap (' ' :: ·)

variable {c d : Char} {cs w xs ys : List Char} {ws : List (List Char)}

theorem intercalate_cons (w : List Char) (ws : List (List Char)) :
    [' '].intercalate (w :: ws) = w ++ spaced ws := by
  induction ws generalizing w with
  | nil => rw [List.intercalate_singleton, spaced, List.flatMap_nil, List.append_nil]
  | cons u ws ih =>
    rw [List.intercalate_cons_cons, ih, spaced, spaced, List.flatMap_cons, List.append_assoc]
    rfl

section Trim

theorem trimEnd_append (h : trimEnd ys ≠ []) : trimEnd (xs ++ ys) = xs ++ trimEnd ys := by
  have hne : (ys.reverse.dropWhile isBlank).isEmpty ≠ true := fun hempty =>
    h (congrArg List.reverse (List.isEmpty_iff.mp hempty))
  rw [trimEnd, List.reverse_append, List.dropWhile_append, if_neg hne, List.reverse_append,
    List.reverse_reverse, trimEnd]

theorem trimEnd_append_of_nil (h : trimEnd ys = []) : trimEnd (xs ++ ys) = trimEnd xs := by
  have hempty : (ys.reverse.dropWhile isBlank).isEmpty = true :=
    List.isEmpty_iff.mpr (List.reverse_eq_nil_iff.mp h)
  rw [trimEnd, List.reverse_append, List.dropWhile_append, if_pos hempty, trimEnd]

theorem trimEnd_cons (hc : isBlank c = false) (cs : List Char) :
    trimEnd (c :: cs) = c :: trimEnd cs := by
  have hone : trimEnd [c] = [c] := by
    rw [trimEnd, List.reverse_singleton, List.dropWhile_cons_of_neg (Bool.eq_false_iff.mp hc),
      List.reverse_singleton]
  rw [← List.singleton_append]
  by_cases h : trimEnd cs = []
  · rw [trimEnd_append_of_nil h, h, hone]
  · exact trimEnd_append h

theorem trimEnd_word (h : ∀ c ∈ w, isBlank c = false) : trimEnd w = w := by
  induction w with
  | nil => rfl
  | cons c w ih =>
    obtain ⟨hc, hw⟩ := List.forall_mem_cons.mp h
    rw [trimEnd_cons hc, ih hw]

theorem trimEnd_intercalate (h : ∀ w ∈ ws, IsWord w) :
    trimEnd ([' '].intercalate ws) = [' '].intercalate ws := by
  induction ws with
  | nil => rfl
  | cons w ws ih =>
    obtain ⟨hw, hws⟩ := List.forall_mem_cons.mp h
    cases ws with
    | nil => rw [List.intercalate_singleton, trimEnd_word hw.2]
    | cons u ws =>
      have hne : [' '].intercalate (u :: ws) ≠ [] := by
        rw [intercalate_cons]
        exact List.append_ne_nil_of_left_ne_nil (List.forall_mem_cons.mp hws).1.1 _
      rw [List.intercalate_cons_cons, trimEnd_append (by rwa [ih hws]), ih hws]

theorem trimStart_intercalate (h : ∀ w ∈ ws, IsWord w) :
    trimStart ([' '].intercalate ws) = [' '].intercalate ws := by
  cases ws with
  | nil => rfl
  | cons w ws =>
    obtain ⟨⟨hne, hw⟩, -⟩ := List.forall_mem_cons.mp h
    obtain ⟨c, w, rfl⟩ := List.exists_cons_of_ne_nil hne
    rw [intercalate_cons, List.cons_append, trimStart,
      List.dropWhile_cons_of_neg (Bool.eq_false_iff.mp (List.forall_mem_cons.mp hw).1)]

end Trim

section Words

theorem wordsOf_blank (hc : isBlank c) (cs : List Char) : wordsOf (c :: cs) = wordsOf cs := by
  rw [wordsOf, fields, if_pos hc]
  rfl

theorem wordsOf_lone (hc : isBlank c = false) (hhead : ∀ d ∈ cs.head?, isBlank d) :
    wordsOf (c :: cs) = [c] :: wordsOf cs := by
  cases cs with
  | nil => simp [wordsOf, fields, hc]
  | cons d cs => simp [wordsOf, fields, hc, hhead d rfl]

theorem exists_wordsOf_cons (hc : isBlank c = false) (cs : List Char) :
    ∃ w ws, wordsOf (c :: cs) = (c :: w) :: ws := by
  rw [wordsOf, fields, if_neg (Bool.eq_false_iff.mp hc)]
  cases hfields : fields isBlank cs with
  | nil => exact absurd hfields (fields_ne_nil _ _)
  | cons f fs => exact ⟨f, _, rfl⟩

theorem wordsOf_cons_cons (hc : isBlank c = false) (hd : isBlank d = false)
    (h : wordsOf (d :: cs) = w :: ws) : wordsOf (c :: d :: cs) = (c :: w) :: ws := by
  rw [wordsOf, fields, if_neg (Bool.eq_false_iff.mp hd)] at h
  rw [wordsOf, fields, if_neg (Bool.eq_false_iff.mp hc), fields, if_neg (Bool.eq_false_iff.mp hd)]
  cases hfields : fields isBlank cs with
  | nil => exact absurd hfields (fields_ne_nil _ _)
  | cons f fs =>
    rw [hfields] at h
    obtain ⟨rfl, rfl⟩ := List.cons.inj h
    rfl

theorem not_of_mem_fields {sep : Char → Bool} (h : w ∈ fields sep cs) : ∀ c ∈ w, sep c = false := by
  induction cs generalizing w with
  | nil => exact List.mem_singleton.mp h ▸ List.forall_mem_nil _
  | cons c cs ih =>
    obtain ⟨first, rest, hfields⟩ := List.exists_cons_of_ne_nil (fields_ne_nil sep cs)
    rw [fields, hfields] at h
    rw [hfields] at ih
    split at h
    · rcases List.mem_cons.mp h with rfl | h
      · exact List.forall_mem_nil _
      · exact ih h
    · next hc =>
      rcases List.mem_cons.mp h with rfl | h
      · exact List.forall_mem_cons.mpr ⟨Bool.eq_false_iff.mpr hc, ih List.mem_cons_self⟩
      · exact ih (List.mem_cons_of_mem _ h)

theorem isWord_of_mem_wordsOf (h : w ∈ wordsOf cs) : IsWord w := by
  obtain ⟨hfield, hne⟩ := List.mem_filter.mp h
  exact ⟨by simpa using hne, not_of_mem_fields hfield⟩

end Words

theorem trimStart_singleSpaced (cs : List Char) :
    trimStart (singleSpaced cs) = singleSpaced (trimStart cs) := by
  induction cs with
  | nil => rfl
  | cons c cs ih =>
    rw [singleSpaced]
    split
    · next hc =>
      rw [trimStart, trimStart, List.dropWhile_cons_of_pos hc]
      split
      · exact ih
      · rw [List.dropWhile_cons_of_pos (by decide)]
        exact ih
    · next hc =>
      rw [trimStart, trimStart, List.dropWhile_cons_of_neg hc, List.dropWhile_cons_of_neg hc,
        singleSpaced, if_neg hc]

theorem trimEnd_singleSpaced (cs : List Char) :
    ((∀ c ∈ cs.head?, isBlank c) → trimEnd (singleSpaced cs) = spaced (wordsOf cs)) ∧
      ((∀ c ∈ cs.head?, isBlank c = false) →
        trimEnd (singleSpaced cs) = [' '].intercalate (wordsOf cs)) := by
  induction cs with
  | nil => exact ⟨fun _ => rfl, fun _ => rfl⟩
  | cons c cs ih =>
    cases hc : isBlank c with
    | true =>
      refine ⟨fun _ => ?_, fun h => absurd hc (Bool.eq_false_iff.mp (h c rfl))⟩
      rw [singleSpaced, if_pos hc, wordsOf_blank hc]
      split
      · next hhead =>
        refine ih.1 fun d hd => ?_
        rwa [hd] at hhead
      · next hhead =>
        cases cs with
        | nil => rfl
        | cons d cs =>
          have hd : isBlank d = false := Bool.eq_false_iff.mpr hhead
          obtain ⟨w, ws, hwords⟩ := exists_wordsOf_cons hd cs
          have hrest := ih.2 fun e he => Option.some.inj he ▸ hd
          rw [hwords, intercalate_cons] at hrest
          rw [← List.singleton_append, trimEnd_append (by rw [hrest]; exact List.cons_ne_nil _ _), hrest,
            hwords]
          rfl
    | false =>
      refine ⟨fun h => absurd (h c rfl) (Bool.eq_false_iff.mp hc), fun _ => ?_⟩
      rw [singleSpaced, if_neg (Bool.eq_false_iff.mp hc), trimEnd_cons hc]
      by_cases hhead : ∀ d ∈ cs.head?, isBlank d
      · rw [ih.1 hhead, wordsOf_lone hc hhead, intercalate_cons]
        rfl
      · cases cs with
        | nil => exact absurd (fun _ => nofun) hhead
        | cons d cs =>
          have hd : isBlank d = false :=
            Bool.eq_false_iff.mpr fun hd => hhead fun e he => Option.some.inj he ▸ hd
          obtain ⟨w, ws, hwords⟩ := exists_wordsOf_cons hd cs
          rw [ih.2 fun e he => Option.some.inj he ▸ hd, wordsOf_cons_cons hc hd hwords, hwords,
            intercalate_cons, intercalate_cons]
          rfl

theorem trimEnd_trimStart_singleSpaced (cs : List Char) :
    trimEnd (trimStart (singleSpaced cs)) = [' '].intercalate (wordsOf cs) := by
  have hwords : wordsOf (trimStart cs) = wordsOf cs := by
    induction cs with
    | nil => rfl
    | cons c cs ih =>
      rw [trimStart, List.dropWhile_cons]
      split
      · next hc => rw [wordsOf_blank hc]; exact ih
      · rfl
  have hhead := List.head?_dropWhile_not isBlank cs
  rw [trimStart_singleSpaced, ← hwords]
  refine (trimEnd_singleSpaced _).2 fun c hc => ?_
  rw [trimStart, Option.mem_def] at hc
  rw [hc] at hhead
  simpa using hhead

theorem intercalate_words (s : String) :
    " ".intercalate (words s) = trim (String.ofList (singleSpaced s.toList)) := by
  have hwords : (words s).map String.toList = wordsOf s.toList := by
    have hback : String.toList ∘ String.ofList = id := funext fun _ => String.toList_ofList
    rw [words, List.map_map, hback, List.map_id, wordsOf]
  have hspace : " ".toList = [' '] := by decide
  rw [trim, String.toList_ofList, trimEnd_trimStart_singleSpaced, ← hwords, ← hspace,
    ← String.toList_intercalate, String.ofList_toList]

theorem isWord_of_mem_words {s word : String} (h : word ∈ words s) : IsWord word.toList := by
  obtain ⟨f, hf, rfl⟩ := List.mem_map.mp h
  rw [String.toList_ofList]
  exact isWord_of_mem_wordsOf hf

theorem trim_intercalate {parts : List String} (h : ∀ part ∈ parts, IsWord part.toList) :
    trim (" ".intercalate parts) = " ".intercalate parts := by
  have hwords : ∀ w ∈ parts.map String.toList, IsWord w := List.forall_mem_map.mpr h
  have hlist : (" ".intercalate parts).toList = [' '].intercalate (parts.map String.toList) :=
    String.toList_intercalate
  rw [trim, hlist, trimStart_intercalate hwords, trimEnd_intercalate hwords, ← hlist,
    String.ofList_toList]

theorem trim_word {s : String} (h : IsWord s.toList) : trim s = s := by
  have hone := trim_intercalate (List.forall_mem_singleton.mpr h)
  rwa [String.intercalate_singleton] at hone

theorem replace_append (old new : Char) (s t : String) :
    replace old new (s ++ t) = replace old new s ++ replace old new t := by
  rw [← String.toList_inj]
  simp only [replace, String.toList_map, String.toList_append, List.map_append]

theorem replace_intercalate {old new : Char} {separator : String}
    (h : replace old new separator = separator) (parts : List String) :
    replace old new (separator.intercalate parts) =
      separator.intercalate (parts.map (replace old new)) := by
  induction parts with
  | nil =>
    rw [List.map_nil, String.intercalate_nil]
    exact String.toList_inj.mp (by simp only [replace, String.toList_map, String.toList_empty, List.map_nil])
  | cons part rest ih =>
    cases rest with
    | nil => rw [String.intercalate_singleton, List.map_singleton, String.intercalate_singleton]
    | cons next rest =>
      rw [String.intercalate_cons_cons, replace_append, replace_append, h, ih]
      simp only [List.map_cons, String.intercalate_cons_cons]

end Manuscript.Text
