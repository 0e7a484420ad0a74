import Manuscript.Document.Header
import Manuscript.Fault

namespace Manuscript

-- Only the characters of the list are checked, not all that there are.
instance decidableForallMemChar (cs : List Char) (p : Char → Prop) [DecidablePred p] :
    Decidable (∀ c ∈ cs, p c) :=
  List.decidableBAll p cs

def Clean (s : String) : Prop := reservedChar ∉ s.toList

instance (s : String) : Decidable (Clean s) :=
  inferInstanceAs (Decidable (reservedChar ∉ s.toList))

theorem clean_ofList {cs : List Char} : Clean (String.ofList cs) ↔ reservedChar ∉ cs := by
  rw [Clean, String.toList_ofList]

theorem clean_append {s t : String} : Clean (s ++ t) ↔ Clean s ∧ Clean t := by
  rw [Clean, String.toList_append, List.mem_append, not_or]
  rfl

theorem clean_empty : Clean "" := by decide

theorem clean_singleton {c : Char} : Clean (String.singleton c) ↔ c ≠ reservedChar := by
  simp [Clean, eq_comm]

theorem intercalate_of_append {p : String → Prop} (hempty : p "")
    (happend : ∀ s t, p s → p t → p (s ++ t)) {separator : String} {parts : List String}
    (hseparator : p separator) (hparts : ∀ part ∈ parts, p part) :
    p (separator.intercalate parts) := by
  induction parts with
  | nil => exact hempty
  | cons part rest ih =>
    obtain ⟨hpart, hrest⟩ := List.forall_mem_cons.mp hparts
    cases rest with
    | nil => rwa [String.intercalate_singleton]
    | cons next rest =>
      rw [String.intercalate_cons_cons]
      exact happend _ _ (happend _ _ hpart hseparator) (ih hrest)

theorem clean_intercalate {s : String} {l : List String} (hs : Clean s)
    (hl : ∀ t ∈ l, Clean t) : Clean (s.intercalate l) :=
  intercalate_of_append clean_empty (fun _ _ hs ht => clean_append.mpr ⟨hs, ht⟩) hs hl

namespace Text

theorem clean_trim {s : String} (h : Clean s) : Clean (trim s) := by
  refine clean_ofList.mpr fun hmem => h ?_
  have hend := List.mem_reverse.mp ((List.dropWhile_sublist _).mem (List.mem_reverse.mp hmem))
  exact (List.dropWhile_sublist _).mem hend

theorem mem_of_mem_fields {sep : Char → Bool} {cs f : List Char} (hf : f ∈ fields sep cs)
    {c : Char} (hc : c ∈ f) : c ∈ cs := by
  induction cs generalizing f with
  | nil => simp_all [fields]
  | cons d cs ih =>
    rw [fields] at hf
    split at hf
    · rcases List.mem_cons.mp hf with rfl | hf
      · cases hc
      · exact List.mem_cons_of_mem d (ih hf hc)
    · split at hf
      · obtain rfl := List.mem_singleton.mp hf
        exact List.mem_cons.mpr (.inl (List.mem_singleton.mp hc))
      · next first rest hrest =>
        rcases List.mem_cons.mp hf with rfl | hf
        · rcases List.mem_cons.mp hc with rfl | hc
          · exact List.mem_cons_self
          · exact List.mem_cons_of_mem d (ih (hrest ▸ List.mem_cons_self) hc)
        · exact List.mem_cons_of_mem d (ih (hrest ▸ List.mem_cons_of_mem first hf) hc)

theorem clean_of_mem_words {s word : String} (h : Clean s) (hw : word ∈ words s) :
    Clean word := by
  obtain ⟨f, hf, rfl⟩ := List.mem_map.mp hw
  exact clean_ofList.mpr fun hc => h (mem_of_mem_fields (List.mem_filter.mp hf).1 hc)

theorem clean_of_mem_splitOn {sep : Char} {s part : String} (h : Clean s)
    (hp : part ∈ splitOn sep s) : Clean part := by
  obtain ⟨f, hf, rfl⟩ := List.mem_map.mp hp
  exact clean_ofList.mpr fun hc => h (mem_of_mem_fields hf hc)

theorem clean_replace {old new : Char} {s : String} (h : Clean s) (hnew : new ≠ reservedChar) :
    Clean (replace old new s) := by
  rw [Clean, replace, String.toList_map, List.mem_map]
  rintro ⟨c, hc, he⟩
  split at he
  · exact hnew he
  · exact h (he ▸ hc)

theorem clean_dropTrailing {c : Char} {s : String} (h : Clean s) : Clean (dropTrailing c s) := by
  refine clean_ofList.mpr fun hmem => h ?_
  exact List.mem_reverse.mp ((List.dropWhile_sublist _).mem (List.mem_reverse.mp hmem))

end Text

namespace Header

theorem clean_namePart {part : String} (h : Clean part) : Clean (namePart part) :=
  Text.clean_replace (Text.clean_trim h) (by decide)

theorem clean_nameParts {fullName : String} (h : Clean fullName) :
    ∀ part ∈ nameParts fullName, Clean part := by
  have hword {word : String} (hw : word ∈ Text.words fullName) : Clean (namePart word) :=
    clean_namePart (Text.clean_of_mem_words h hw)
  rw [nameParts]
  split
  · simp [clean_empty]
  · next hwords => simp_all
  · next hwords => simp_all
  · next first middle last _ hwords =>
    have hlast : Clean (" ".intercalate last) :=
      clean_intercalate (by decide) fun word hw => Text.clean_of_mem_words h (by simp_all)
    simp_all [clean_namePart hlast]

end Header

end Manuscript
