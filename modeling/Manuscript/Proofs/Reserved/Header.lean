import Manuscript.Proofs.Reserved.Tidy

namespace Manuscript.Header

def CleanAuthor (author : Author) : Prop :=
  Clean author.fullName ∧ ∀ e ∈ author.email, Clean e

variable {author : Author}

theorem clean_initials {parts : List String} (h : ∀ part ∈ parts, Clean part) :
    Clean (initials parts) := by
  refine clean_ofList.mpr fun hmem => ?_
  obtain ⟨part, hpart, hhead⟩ := List.mem_filterMap.mp hmem
  exact h part hpart (List.mem_of_head? hhead)

theorem clean_nameFields {parts : List String} (h : ∀ part ∈ parts, Clean part) :
    ∀ field ∈ nameFields parts, Clean field.2 := by
  unfold nameFields
  split <;> simp_all

theorem clean_email? (h : CleanAuthor author) {email : String} (he : email? author = some email) :
    Clean email := by
  rw [email?] at he
  cases hemail : author.email with
  | none => rw [hemail] at he; cases he
  | some original =>
    rw [hemail] at he
    have hclean := Text.clean_trim (h.2 original hemail)
    simp only [Option.bind_eq_bind, Option.bind_some] at he
    split at he
    · cases he
    · obtain rfl := Option.some.inj he
      exact hclean

theorem cleanAuthor_normalized (h : CleanAuthor author) : CleanAuthor (normalized author) :=
  ⟨clean_intercalate (by decide) (clean_nameParts h.1), fun _ he => clean_email? h he⟩

theorem clean_authorFields (h : CleanAuthor author) :
    ∀ field ∈ authorFields author, Clean field.2 := by
  have hparts := clean_nameParts h.1
  intro field hfield
  rcases List.mem_append.mp hfield with hfield | hfield
  · rcases List.mem_append.mp hfield with hfield | hfield
    · exact clean_nameFields hparts field hfield
    · rcases List.mem_cons.mp hfield with rfl | hfield
      · exact (cleanAuthor_normalized h).1
      · obtain rfl := List.mem_singleton.mp hfield
        exact clean_initials hparts
  · obtain ⟨email, he, rfl⟩ := List.mem_map.mp hfield
    exact clean_email? h (Option.mem_toList.mp he)

theorem tidy_authorEntries {people : List Author} (h : ∀ a ∈ people, CleanAuthor a) (index : Nat) :
    ∀ entry ∈ authorEntries index people, entry.2.Tidy := by
  induction people generalizing index with
  | nil => exact fun _ he => absurd he List.not_mem_nil
  | cons a people ih =>
    obtain ⟨ha, hpeople⟩ := List.forall_mem_cons.mp h
    intro entry he
    rcases List.mem_append.mp he with he | he
    · obtain ⟨field, hfield, rfl⟩ := List.mem_map.mp he
      exact Value.tidy_string.mpr (clean_authorFields ha field hfield)
    · exact ih hpeople (index + 1) entry he

theorem tidy_expandAuthors {people : List Author} (h : ∀ a ∈ people, CleanAuthor a) :
    (expandAuthors people).Tidy := by
  intro entry he
  rcases List.mem_append.mp (Dict.mem_ofList he) with he | he
  · exact tidy_authorEntries h 0 entry he
  · obtain rfl := List.mem_singleton.mp he
    refine ⟨fun a ha => ?_, fun _ hs => absurd hs List.not_mem_nil⟩
    obtain ⟨original, ho, rfl⟩ := List.mem_map.mp ha
    exact cleanAuthor_normalized (h original ho)

theorem tidy_expandRevision {r : Revision} (h : Clean r.number ∧ Clean r.date ∧ Clean r.remark) :
    (expandRevision r).Tidy := by
  intro entry he
  rcases List.mem_append.mp (Dict.mem_ofList he) with he | he
  · obtain ⟨part, hpart, rfl⟩ := List.mem_map.mp he
    have hmem := (List.mem_filter.mp hpart).1
    simp only [List.mem_cons, List.not_mem_nil, or_false] at hmem
    rcases hmem with rfl | rfl | rfl
    · exact Value.tidy_string.mpr h.1
    · exact Value.tidy_string.mpr h.2.1
    · exact Value.tidy_string.mpr h.2.2
  · obtain rfl := List.mem_singleton.mp he
    exact ⟨h, fun _ hs => absurd hs List.not_mem_nil⟩

variable {attributes : Attributes}

theorem tidy_authorsOf (h : ∀ entry ∈ attributes.entries, entry.2.Credits Clean) :
    (authorsOf attributes).Tidy := by
  rw [authorsOf]
  split
  · next people hp => exact tidy_expandAuthors (h _ (Dict.mem_of_find? hp))
  · exact Dict.Tidy.empty

theorem tidy_revisionOf (h : ∀ entry ∈ attributes.entries, entry.2.Credits Clean) :
    (revisionOf attributes).Tidy := by
  rw [revisionOf]
  split
  · next r hr => exact tidy_expandRevision (h _ (Dict.mem_of_find? hr))
  · exact Dict.Tidy.empty

theorem mem_sequencesOf_erase {name : String} {s : List Element}
    (h : s ∈ sequencesOf (attributes.erase name).entries) : s ∈ sequencesOf attributes.entries := by
  rw [sequencesOf_eq_flatMap, List.mem_flatMap] at h ⊢
  obtain ⟨entry, he, hs⟩ := h
  exact ⟨entry, List.mem_of_mem_filter he, hs⟩

theorem throughout_section_erase {level : UInt8} {title elements : List Element} {name : String}
    (h : (Element.sectionBlock level attributes title elements).Throughout Element.Tidy) :
    (Element.sectionBlock level (attributes.erase name) title elements).Throughout Element.Tidy :=
  ⟨fun entry he => h.1 entry (List.mem_of_mem_filter he), h.2.1,
    fun s hs => h.2.2 s (mem_sequencesOf_erase hs)⟩

theorem tidy_collect {found : Attributes} {elements : List Element} (hfound : found.Tidy)
    (h : Everywhere Element.Tidy elements) :
    (collect found elements).1.Tidy ∧ Everywhere Element.Tidy (collect found elements).2 := by
  fun_induction collect found elements with
  | case1 found => exact ⟨hfound, h⟩
  | case2 found rest attributes title elements all others heq kept ih =>
    obtain ⟨hsection, hrest⟩ := everywhere_cons.mp h
    have hheader := (hfound.union (tidy_authorsOf hsection.1)).union (tidy_revisionOf hsection.1)
    have hcollect := ih hheader hrest
    rw [heq] at hcollect
    exact ⟨hcollect.1, everywhere_cons.mpr
      ⟨throughout_section_erase (throughout_section_erase hsection), hcollect.2⟩⟩
  | case4 found rest name value all others heq ih =>
    obtain ⟨hfirst, hrest⟩ := everywhere_cons.mp h
    have hcollect := ih (hfound.insert (tidy_declaration.mp hfirst)) hrest
    rw [heq] at hcollect
    exact ⟨hcollect.1, everywhere_cons.mpr ⟨hfirst, hcollect.2⟩⟩
  | case5 found rest name all others heq ih =>
    obtain ⟨hfirst, hrest⟩ := everywhere_cons.mp h
    have hcollect := ih (hfound.insert Value.tidy_nil) hrest
    rw [heq] at hcollect
    exact ⟨hcollect.1, everywhere_cons.mpr ⟨hfirst, hcollect.2⟩⟩
  | case6 found rest all others heq ih | case7 found rest _ all others heq ih =>
    obtain ⟨hfirst, hrest⟩ := everywhere_cons.mp h
    have hcollect := ih hfound hrest
    rw [heq] at hcollect
    exact ⟨hcollect.1, everywhere_cons.mpr ⟨hfirst, hcollect.2⟩⟩
  | case3 => exact ⟨hfound, h⟩
  | case8 => exact ⟨hfound, h⟩

end Manuscript.Header
