import Mathlib.Data.List.DropRight
import Manuscript.Location

namespace Manuscript.Location

def Rooted (url : String) : Prop :=
  ∃ rest, url.toList = '/' :: rest

def Absolute (url : String) : Prop :=
  ∃ c scheme rest, url.toList = c :: (scheme ++ ':' :: rest) ∧ c.isAlpha ∧
    ∀ d ∈ scheme, isSchemeChar d

def Anchored (location : Location Element) : Prop :=
  location.scheme ≠ "" ∨ Rooted location.url ∨ Absolute location.url

variable {directory url : String} {location : Location Element} {base dir : List Char} {n : Nat}

theorem isRooted_iff : isRooted url.toList ↔ Rooted url := by
  rw [isRooted, beq_iff_eq, List.head?_eq_some_iff]
  rfl

theorem isAbsolute_iff : isAbsolute url.toList ↔ Absolute url := by
  cases hurl : url.toList with
  | nil => simp [isAbsolute, Absolute, hurl]
  | cons c rest =>
    rw [isAbsolute, Bool.and_eq_true, beq_iff_eq, List.head?_eq_some_iff, Absolute, hurl]
    constructor
    · rintro ⟨hc, after, hafter⟩
      refine ⟨c, rest.takeWhile isSchemeChar, after, ?_, hc, fun d hd => List.mem_takeWhile_imp hd⟩
      rw [← hafter, List.takeWhile_append_dropWhile]
    · rintro ⟨_, scheme, after, heq, hc, hscheme⟩
      obtain ⟨rfl, rfl⟩ := List.cons.inj heq
      refine ⟨hc, after, ?_⟩
      rw [List.dropWhile_append_of_pos hscheme, List.dropWhile_cons_of_neg (by decide)]

theorem exists_slashes (directory : String) :
    ∃ n, directory.toList = (Text.dropTrailing '/' directory).toList ++ List.replicate n '/' ∧
      (Text.dropTrailing '/' directory).toList.getLast? ≠ some '/' := by
  have hdrop : (Text.dropTrailing '/' directory).toList = directory.toList.rdropWhile (· == '/') :=
    String.toList_ofList
  rw [hdrop]
  have hslashes : directory.toList.rtakeWhile (· == '/') =
      List.replicate (directory.toList.rtakeWhile (· == '/')).length '/' :=
    List.eq_replicate_length.mpr fun _ hc => by simpa using List.mem_rtakeWhile_imp hc
  refine ⟨(directory.toList.rtakeWhile (· == '/')).length, ?_, fun hlast => ?_⟩
  · rw [← hslashes, List.rdropWhile_append_rtakeWhile]
  · have hnot := List.head?_dropWhile_not (· == '/') directory.toList.reverse
    rw [List.rdropWhile, List.getLast?_reverse] at hlast
    rw [hlast] at hnot
    cases hnot

theorem below_of_anchored (h : location.Anchored) : below directory location = location := by
  rw [below]
  split
  · rfl
  · next hmove =>
    have hscheme : location.scheme = "" := by
      simpa using (not_or.mp (mt Bool.or_eq_true_iff.mpr hmove)).2
    rw [if_pos]
    rw [Bool.or_eq_true, isRooted_iff, isAbsolute_iff]
    exact h.resolve_left fun hne => hne hscheme

theorem below_of_not_anchored (hdirectory : directory ≠ "") (h : ¬ location.Anchored) :
    below directory location = { location with
      path := merge (.text (Text.dropTrailing '/' directory ++ "/") :: location.path) } := by
  obtain ⟨hscheme, hurl⟩ := not_or.mp h
  rw [← isRooted_iff, ← isAbsolute_iff, ← Bool.or_eq_true] at hurl
  rw [below, if_neg (by simpa [hdirectory] using hscheme), if_neg hurl]

theorem url_below (hdirectory : directory ≠ "") (h : ¬ location.Anchored) :
    (below directory location).url = Text.dropTrailing '/' directory ++ "/" ++ location.url := by
  have hscheme : location.scheme = "" := Decidable.not_not.mp (not_or.mp h).1
  rw [below_of_not_anchored hdirectory h, url, url, hscheme, plainText_merge, plainText,
    Element.plain, String.empty_append, String.empty_append]

theorem baseName_append (dir cs : List Char) : baseName (dir ++ '/' :: cs) = baseName cs := by
  rw [baseName, baseName, List.reverse_append, List.reverse_cons, List.append_assoc,
    List.takeWhile_append]
  split
  · next hall =>
    rw [List.singleton_append, List.takeWhile_cons_of_neg (by decide), List.append_nil,
      (List.takeWhile_prefix _).eq_of_length hall]
  · rfl

theorem stem_below (directory : String) (location : Location Element) :
    (below directory location).stem = location.stem := by
  by_cases hstay : directory = "" ∨ location.Anchored
  · rcases hstay with rfl | h
    · rfl
    · rw [below_of_anchored h]
  · obtain ⟨hdirectory, h⟩ := not_or.mp hstay
    rw [stem, url_below hdirectory h, String.toList_append, String.toList_append]
    exact congrArg (String.ofList ∘ dropExtension)
      ((congrArg baseName (List.append_assoc ..)).trans (baseName_append _ _))

theorem rooted_of_slashes {cs : List Char} (h : directory.toList = base ++ List.replicate n '/')
    (hrooted : Rooted directory) (hurl : url.toList = base ++ '/' :: cs) : Rooted url := by
  obtain ⟨rest, hrest⟩ := hrooted
  cases base with
  | nil => exact ⟨cs, hurl⟩
  | cons c others =>
    obtain rfl : '/' = c := (List.cons.inj (hrest.symm.trans h)).1
    exact ⟨others ++ '/' :: cs, hurl⟩

theorem absolute_of_slashes {cs : List Char} (h : directory.toList = base ++ List.replicate n '/')
    (habsolute : Absolute directory) (hurl : url.toList = base ++ '/' :: cs) : Absolute url := by
  obtain ⟨c, scheme, rest, heq, hc, hscheme⟩ := habsolute
  have hnot : ':' ∉ List.replicate n '/' := fun hcolon =>
    absurd (List.eq_of_mem_replicate hcolon) (by decide)
  have hparts : (c :: scheme) ++ ':' :: rest = base ++ List.replicate n '/' := heq.symm.trans h
  obtain ⟨as, hbase, htail⟩ | ⟨bs, -, htail⟩ := List.append_eq_append_iff.mp hparts
  · cases as with
    | nil =>
      rw [List.nil_append] at htail
      exact absurd (htail ▸ List.mem_cons_self) hnot
    | cons d others =>
      obtain ⟨rfl, -⟩ := List.cons.inj htail
      refine ⟨c, scheme, others ++ '/' :: cs, ?_, hc, hscheme⟩
      rw [hurl, hbase]
      simp
  · exact absurd (htail ▸ List.mem_append_right _ List.mem_cons_self) hnot

theorem anchored_below (h : Rooted directory ∨ Absolute directory) (location : Location Element) :
    (below directory location).Anchored := by
  by_cases hlocation : location.Anchored
  · rwa [below_of_anchored hlocation]
  · have hdirectory : directory ≠ "" := by
      rintro rfl
      rcases h with ⟨_, heq⟩ | ⟨_, _, _, heq, -⟩ <;> cases heq
    obtain ⟨n, hslashes, -⟩ := exists_slashes directory
    have hurl : (below directory location).url.toList =
        (Text.dropTrailing '/' directory).toList ++ '/' :: location.url.toList := by
      rw [url_below hdirectory hlocation, String.toList_append, String.toList_append, List.append_assoc]
      rfl
    exact .inr (h.imp (rooted_of_slashes hslashes · hurl) (absolute_of_slashes hslashes · hurl))

/-- Moving a location below a directory changes nothing about the name of its file, and nothing at all if the
location is anchored. Any other one gets the directory, without slashes at its end, and a slash in front. Below a
rooted or absolute directory it stays. -/
theorem below_laws (directory : String) (location : Location Element) :
    (below directory location).stem = location.stem ∧
      (directory = "" ∨ location.Anchored → below directory location = location) ∧
      (directory ≠ "" → ¬ location.Anchored → ∃ base n,
        directory.toList = base ++ List.replicate n '/' ∧ base.getLast? ≠ some '/' ∧
          (below directory location).url = String.ofList base ++ "/" ++ location.url) ∧
      (Rooted directory ∨ Absolute directory →
        ∀ other, below other (below directory location) = below directory location) := by
  refine ⟨stem_below directory location, ?_, fun hdirectory h => ?_, fun h other => ?_⟩
  · rintro (rfl | h)
    · rfl
    · exact below_of_anchored h
  · obtain ⟨n, hslashes, hlast⟩ := exists_slashes directory
    refine ⟨_, n, hslashes, hlast, ?_⟩
    rw [url_below hdirectory h, String.ofList_toList]
  · exact below_of_anchored (anchored_below h location)

theorem below_laws_slashes :
    (below "//" ⟨"", [.text "a/.b", .lineBreak]⟩).stem = ".b" ∧
      (below "//" ⟨"", [.text "a/.b", .lineBreak]⟩).url = "/a/.b" ∧
      below "c" (below "//" ⟨"", [.text "a/.b", .lineBreak]⟩) =
        below "//" ⟨"", [.text "a/.b", .lineBreak]⟩ := by
  obtain ⟨hstem, -, -, hstays⟩ := below_laws "//" ⟨"", [.text "a/.b", .lineBreak]⟩
  refine ⟨hstem.trans rfl, rfl, hstays (.inl ⟨['/'], rfl⟩) "c"⟩

end Manuscript.Location
