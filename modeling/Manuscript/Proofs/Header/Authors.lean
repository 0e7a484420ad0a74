import Manuscript.Proofs.Dict
import Manuscript.Proofs.Words
import Manuscript.Document.Header

namespace Manuscript.Header

def shownName (author : Author) : String :=
  Text.replace '_' ' ' (Text.trim (String.ofList (Text.singleSpaced author.fullName.toList)))

def address? (author : Author) : Option String :=
  (author.email.map Text.trim).filter (· ≠ "")

def heldNames (attributes : Attributes) (index : Nat) : List (String × Value) :=
  ["firstname", "middlename", "lastname"].filterMap fun key =>
    (attributes.find? (authorKey key index)).map (key, ·)

def fieldNames : List String :=
  ["firstname", "middlename", "lastname", "author", "authorinitials", "email"]

variable {key key' : String} {index index' start : Nat} {author : Author} {people : List Author}
  {entry : String × Value} {value : String}

section Names

theorem namePart_word (h : Text.IsWord key.toList) : namePart key = Text.replace '_' ' ' key := by
  rw [namePart, Text.trim_word h]

theorem replace_space : Text.replace '_' ' ' " " = " " := by
  decide +kernel

theorem intercalate_nameParts (fullName : String) :
    " ".intercalate (nameParts fullName) =
      Text.replace '_' ' ' (" ".intercalate (Text.words fullName)) := by
  have hwords (word : String) (h : word ∈ Text.words fullName) : Text.IsWord word.toList :=
    Text.isWord_of_mem_words h
  rw [Text.replace_intercalate replace_space, nameParts]
  generalize Text.words fullName = words at hwords
  match words with
  | [] => rfl
  | [first] => simp only [namePart_word (hwords first (by simp)), List.map_singleton]
  | [first, last] =>
    simp only [namePart_word (hwords first (by simp)), namePart_word (hwords last (by simp)),
      List.map_cons, List.map_nil]
  | first :: middle :: third :: last =>
    have hlast : ∀ word ∈ third :: last, Text.IsWord word.toList := fun word h =>
      hwords word (List.mem_cons_of_mem _ (List.mem_cons_of_mem _ h))
    have hjoined : namePart (" ".intercalate (third :: last)) =
        " ".intercalate ((third :: last).map (Text.replace '_' ' ')) := by
      rw [namePart, Text.trim_intercalate hlast, Text.replace_intercalate replace_space]
    simp only [hjoined, namePart_word (hwords first (by simp)),
      namePart_word (hwords middle (by simp)), List.map_cons, String.intercalate_cons_cons,
      String.intercalate_singleton]

theorem intercalate_nameParts_eq_shownName (author : Author) :
    " ".intercalate (nameParts author.fullName) = shownName author := by
  rw [intercalate_nameParts, Text.intercalate_words, shownName]

theorem nameParts_cases (fullName : String) :
    (∃ first, nameParts fullName = [first]) ∨ (∃ first last, nameParts fullName = [first, last]) ∨
      ∃ first middle last, nameParts fullName = [first, middle, last] := by
  rw [nameParts]
  split
  · exact .inl ⟨_, rfl⟩
  · exact .inl ⟨_, rfl⟩
  · exact .inr (.inl ⟨_, _, rfl⟩)
  · exact .inr (.inr ⟨_, _, _, rfl⟩)

theorem email?_eq (author : Author) : email? author = address? author := by
  cases h : author.email with
  | none => simp [email?, address?, h]
  | some email => by_cases hempty : Text.trim email = "" <;> simp [email?, address?, h, hempty, Option.filter]

theorem normalized_eq (author : Author) : normalized author = ⟨shownName author, address? author⟩ := by
  rw [normalized, intercalate_nameParts_eq_shownName, email?_eq]

end Names

section Keys

theorem underscore_not_mem (h : key ∈ fieldNames) : '_' ∉ key.toList := by
  revert key
  decide

theorem toList_authorKey_succ (key : String) (index : Nat) :
    (authorKey key (index + 1)).toList = key.toList ++ '_' :: Nat.toDigits 10 (index + 2) := by
  simp [authorKey, Nat.repr]

theorem authorKey_inj (hkey : key ∈ fieldNames) (hkey' : key' ∈ fieldNames)
    (h : authorKey key index = authorKey key' index') : key = key' ∧ index = index' := by
  have hlist := congrArg String.toList h
  have hplain := underscore_not_mem hkey
  have hplain' := underscore_not_mem hkey'
  cases index with
  | zero =>
    cases index' with
    | zero => exact ⟨h, rfl⟩
    | succ index' =>
      rw [toList_authorKey_succ] at hlist
      exact absurd (hlist ▸ List.mem_append_right _ List.mem_cons_self) hplain
  | succ index =>
    cases index' with
    | zero =>
      rw [toList_authorKey_succ] at hlist
      exact absurd (hlist ▸ List.mem_append_right _ List.mem_cons_self) hplain'
    | succ index' =>
      rw [toList_authorKey_succ, toList_authorKey_succ] at hlist
      have hdigits : '_' ∉ Nat.toDigits 10 (index + 2) := fun hmem =>
        absurd (Nat.isDigit_of_mem_toDigits (by decide) (by decide) hmem) (by decide)
      obtain ⟨hkeys, -, hnumbers⟩ := (List.append_cons_inj_of_notMem hplain hdigits).mp hlist
      have hindex : index + 2 = index' + 2 := by
        rw [← Nat.ofDigitChars_toDigits (b := 10) (n := index + 2) (by decide) (by decide), hnumbers,
          Nat.ofDigitChars_toDigits (by decide) (by decide)]
      exact ⟨String.toList_inj.mp hkeys, Nat.succ.inj hindex⟩

theorem authorKey_ne_authors (h : key ∈ fieldNames) (index : Nat) :
    authorKey key index ≠ "authors" := by
  cases index with
  | zero =>
    revert key
    decide
  | succ index =>
    intro he
    have hmem : '_' ∈ (authorKey key (index + 1)).toList := by
      rw [toList_authorKey_succ]
      exact List.mem_append_right _ List.mem_cons_self
    rw [he] at hmem
    exact absurd hmem (by decide)

theorem keys_authorFields (author : Author) :
    ((authorFields author).map (·.1)).Sublist fieldNames := by
  have hemail : (((email? author).toList.map ("email", ·)).map (·.1)).Sublist ["email"] := by
    cases email? author
    · exact List.nil_sublist _
    · exact .refl _
  have hnames : ((nameFields (nameParts author.fullName)).map (·.1)).Sublist
      ["firstname", "middlename", "lastname"] := by
    obtain ⟨_, h⟩ | ⟨_, _, h⟩ | ⟨_, _, _, h⟩ := nameParts_cases author.fullName <;> rw [h]
    · exact List.singleton_sublist.mpr List.mem_cons_self
    · exact .cons_cons _ (.cons _ (.refl _))
    · exact .refl _
  rw [authorFields, List.map_append, List.map_append]
  exact (hnames.append (.refl _)).append hemail

theorem mem_fieldNames (h : (key, value) ∈ authorFields author) : key ∈ fieldNames :=
  (keys_authorFields author).subset (List.mem_map_of_mem h)

end Keys

section Entries

theorem mem_authorEntries :
    entry ∈ authorEntries start people ↔
      ∃ index author key value, people[index]? = some author ∧
        (key, value) ∈ authorFields author ∧
        entry = (authorKey key (start + index), .string value) := by
  induction people generalizing start with
  | nil => simp [authorEntries]
  | cons first rest ih =>
    rw [authorEntries, List.mem_append, List.mem_map, ih]
    constructor
    · rintro (⟨⟨key, value⟩, hmem, rfl⟩ | ⟨index, author, key, value, hget, hmem, rfl⟩)
      · exact ⟨0, first, key, value, rfl, hmem, rfl⟩
      · exact ⟨index + 1, author, key, value, hget, hmem, by rw [Nat.add_assoc, Nat.add_comm 1]⟩
    · rintro ⟨index, author, key, value, hget, hmem, rfl⟩
      cases index with
      | zero =>
        obtain rfl := Option.some.inj hget
        exact .inl ⟨(key, value), hmem, rfl⟩
      | succ index =>
        exact .inr ⟨index, author, key, value, hget, hmem, by rw [Nat.add_assoc, Nat.add_comm 1]⟩

theorem nodup_keys_authorEntries (start : Nat) (people : List Author) :
    ((authorEntries start people).map (·.1)).Nodup := by
  induction people generalizing start with
  | nil => exact .nil
  | cons first rest ih =>
    rw [authorEntries, List.map_append, List.map_map]
    refine List.nodup_append.mpr ⟨?_, ih _, ?_⟩
    · have hkeys : ((authorFields first).map (·.1)).Nodup :=
        (keys_authorFields first).nodup (by decide)
      rw [List.Nodup, List.pairwise_map] at hkeys ⊢
      refine hkeys.imp_of_mem fun hleft hright hne he => hne ?_
      exact (authorKey_inj (mem_fieldNames hleft) (mem_fieldNames hright) he).1
    · intro left hleft right hright he
      obtain ⟨⟨key, value⟩, hmem, rfl⟩ := List.mem_map.mp hleft
      obtain ⟨entry, hentry, rfl⟩ := List.mem_map.mp hright
      obtain ⟨index, author, key', value', -, hmem', rfl⟩ := mem_authorEntries.mp hentry
      have hstart := (authorKey_inj (mem_fieldNames hmem) (mem_fieldNames hmem') he).2
      omega

theorem nodup_keys (people : List Author) :
    ((authorEntries 0 people).map (·.1) ++ ["authors"]).Nodup := by
  refine List.nodup_append.mpr ⟨nodup_keys_authorEntries 0 people, List.pairwise_singleton .., ?_⟩
  intro left hleft right hright he
  obtain ⟨entry, hentry, rfl⟩ := List.mem_map.mp hleft
  obtain ⟨index, author, key, value, -, hmem, rfl⟩ := mem_authorEntries.mp hentry
  exact authorKey_ne_authors (mem_fieldNames hmem) _ (he.trans (List.mem_singleton.mp hright))

end Entries

section Found

theorem find?_expandAuthors_of_mem
    (h : entry ∈ authorEntries 0 people ++ [("authors", .authors (people.map normalized))]) :
    (expandAuthors people).find? entry.1 = some entry.2 :=
  Dict.find?_ofList_of_mem (by rw [List.map_append]; exact nodup_keys people) h

theorem find?_authorKey (h : people[index]? = some author) (hkey : key ∈ fieldNames) :
    (expandAuthors people).find? (authorKey key index) =
      (Dict.findEntry key (authorFields author)).map .string := by
  cases hfield : Dict.findEntry key (authorFields author) with
  | some value =>
    have hmem : (authorKey key (0 + index), .string value) ∈ authorEntries 0 people :=
      mem_authorEntries.mpr ⟨index, author, key, value, h, Dict.mem_of_findEntry hfield, rfl⟩
    rw [Nat.zero_add] at hmem
    exact find?_expandAuthors_of_mem (List.mem_append_left _ hmem)
  | none =>
    cases hfound : (expandAuthors people).find? (authorKey key index) with
    | none => rfl
    | some found =>
      rcases List.mem_append.mp (Dict.mem_ofList (Dict.mem_of_find? hfound)) with hmem | hmem
      · obtain ⟨other, author', key', value, hget, hmem, he⟩ := mem_authorEntries.mp hmem
        rw [Nat.zero_add] at he
        obtain ⟨rfl, rfl⟩ := authorKey_inj hkey (mem_fieldNames hmem) (congrArg Prod.fst he)
        obtain rfl := Option.some.inj (h.symm.trans hget)
        exact absurd hfield (Dict.findEntry_ne_none hmem)
      · exact absurd (congrArg Prod.fst (List.mem_singleton.mp hmem)) (authorKey_ne_authors hkey _)

theorem find?_author (h : people[index]? = some author) :
    (expandAuthors people).find? (authorKey "author" index) = some (.string (shownName author)) := by
  rw [find?_authorKey h (by decide), authorFields, normalized_eq]
  obtain ⟨_, h⟩ | ⟨_, _, h⟩ | ⟨_, _, _, h⟩ := nameParts_cases author.fullName <;> rw [h] <;> rfl

theorem find?_initials (h : people[index]? = some author) :
    (expandAuthors people).find? (authorKey "authorinitials" index) =
      some (.string (initials (nameParts author.fullName))) := by
  rw [find?_authorKey h (by decide), authorFields]
  obtain ⟨_, h⟩ | ⟨_, _, h⟩ | ⟨_, _, _, h⟩ := nameParts_cases author.fullName <;> rw [h] <;> rfl

theorem find?_email (h : people[index]? = some author) :
    (expandAuthors people).find? (authorKey "email" index) = (address? author).map .string := by
  rw [find?_authorKey h (by decide), authorFields, email?_eq]
  obtain ⟨_, h⟩ | ⟨_, _, h⟩ | ⟨_, _, _, h⟩ := nameParts_cases author.fullName <;>
    rw [h] <;> cases address? author <;> rfl

theorem heldNames_expandAuthors (h : people[index]? = some author) :
    heldNames (expandAuthors people) index =
      (nameFields (nameParts author.fullName)).map fun (key, name) => (key, .string name) := by
  have hfind (key : String) (hkey : key ∈ fieldNames) := find?_authorKey h hkey
  simp only [heldNames, List.filterMap_cons, hfind "firstname" (by decide),
    hfind "middlename" (by decide), hfind "lastname" (by decide), authorFields]
  obtain ⟨_, h⟩ | ⟨_, _, h⟩ | ⟨_, _, _, h⟩ := nameParts_cases author.fullName <;>
    rw [h] <;> cases email? author <;> rfl

theorem nameFields_snd (fullName : String) :
    (nameFields (nameParts fullName)).map (·.2) = nameParts fullName := by
  obtain ⟨_, h⟩ | ⟨_, _, h⟩ | ⟨_, _, _, h⟩ := nameParts_cases fullName <;> rw [h] <;> rfl

theorem nameFields_fst (fullName : String) :
    (nameFields (nameParts fullName)).map (·.1) ∈
      [["firstname"], ["firstname", "lastname"], ["firstname", "middlename", "lastname"]] := by
  obtain ⟨_, h⟩ | ⟨_, _, h⟩ | ⟨_, _, _, h⟩ := nameParts_cases fullName <;>
    rw [h] <;> simp [nameFields]

end Found

/-- No two of the entries written for a list of authors have one key, so all of them are found: under the
keys of each author the name as it is shown, its parts, their initials and the address. -/
theorem authors_expanded (people : List Author) :
    ((authorEntries 0 people).map (·.1) ++ ["authors"]).Nodup ∧
    (∀ entry ∈ authorEntries 0 people,
      (expandAuthors people).find? entry.1 = some entry.2) ∧
    (expandAuthors people).find? "authors" =
      some (.authors (people.map fun author => ⟨shownName author, address? author⟩)) ∧
    ∀ index author, people[index]? = some author →
      (expandAuthors people).find? (authorKey "author" index) = some (.string (shownName author)) ∧
      (∃ names : List (String × String),
        heldNames (expandAuthors people) index =
          names.map (fun (key, name) => (key, .string name)) ∧
        names.map (·.1) ∈
          [["firstname"], ["firstname", "lastname"], ["firstname", "middlename", "lastname"]] ∧
        " ".intercalate (names.map (·.2)) = shownName author ∧
        (expandAuthors people).find? (authorKey "authorinitials" index) =
          some (.string (initials (names.map (·.2))))) ∧
      (expandAuthors people).find? (authorKey "email" index) = (address? author).map .string := by
  have hlist := find?_expandAuthors_of_mem (List.mem_append_right (authorEntries 0 people)
    (List.mem_singleton_self ("authors", Value.authors (people.map normalized))))
  refine ⟨nodup_keys people, fun entry h => find?_expandAuthors_of_mem (List.mem_append_left _ h),
    ?_, fun index author h => ⟨find?_author h, ?_, find?_email h⟩⟩
  · rwa [List.map_congr_left fun author _ => normalized_eq author] at hlist
  · refine ⟨_, heldNames_expandAuthors h, nameFields_fst _, ?_, ?_⟩
    · rw [nameFields_snd, intercalate_nameParts_eq_shownName]
    · rw [nameFields_snd, find?_initials h]

theorem second_author_expanded :
    (expandAuthors [⟨"Ada", none⟩, ⟨" Mary_Ann  Lee ", some " "⟩]).find? "author_2" =
        some (.string "Mary Ann Lee") ∧
      (expandAuthors [⟨"Ada", none⟩, ⟨" Mary_Ann  Lee ", some " "⟩]).find? "email_2" = none := by
  have hsecond := (authors_expanded [⟨"Ada", none⟩, ⟨" Mary_Ann  Lee ", some " "⟩]).2.2.2 1
    ⟨" Mary_Ann  Lee ", some " "⟩ rfl
  have hname : shownName ⟨" Mary_Ann  Lee ", some " "⟩ = "Mary Ann Lee" := by decide +kernel
  have hemail : address? ⟨" Mary_Ann  Lee ", some " "⟩ = none := rfl
  have hkey : authorKey "author" 1 = "author_2" := rfl
  have hkey' : authorKey "email" 1 = "email_2" := rfl
  rw [hname, hemail, hkey, hkey'] at hsecond
  exact ⟨hsecond.1, hsecond.2.2⟩

end Manuscript.Header
