import Manuscript.Element.Decode

namespace Manuscript

namespace Json

def lookup (name : String) (fields : List (String × Json)) : Option (Option Json) :=
  (soleField name fields).map fun found => found.map (·.1)

def exactlyOne : Option (Option Json) → Option (Option Json) → Option (Option Json)
  | some none, found => found
  | found, some none => found
  | _, _ => none

section Lookup

variable {α : Type} {name n : String} {j : Json} {fields rest : List (String × Json)}
  {read : Json → Option α}

@[simp] theorem exactlyOne_missing (found : Option (Option Json)) :
    exactlyOne (some none) found = found := rfl

@[simp] theorem exactlyOne_missing_right (found : Option (Option Json)) :
    exactlyOne found (some none) = found := by
  unfold exactlyOne
  split <;> simp_all

@[simp] theorem lookup_nil (name : String) : lookup name [] = some none := rfl

theorem findField_eq (name : String) (fields : List (String × Json)) :
    (findField name fields).map (·.1) =
      (fields.filter (·.1 = name)).getLast?.map (·.2) := by
  induction fields with
  | nil => rfl
  | cons field rest ih =>
    obtain ⟨n, j⟩ := field
    rw [findField_cons, ih, List.filter_cons]
    by_cases hn : n = name
    · cases hlast : (rest.filter (·.1 = name)).getLast? <;> simp [hn, hlast, List.getLast?_cons]
    · simp [hn]

def sole : List (String × Json) → Option (Option Json)
  | [] => some none
  | [field] => some (some field.2)
  | _ => none

theorem sole_append (xs ys : List (String × Json)) :
    sole (xs ++ ys) = exactlyOne (sole xs) (sole ys) := by
  rcases xs with - | ⟨x, - | ⟨x', xs⟩⟩ <;> rcases ys with - | ⟨y, - | ⟨y', ys⟩⟩ <;>
    simp [sole, exactlyOne]

theorem lookup_eq (name : String) (fields : List (String × Json)) :
    lookup name fields = sole (fields.filter (·.1 = name)) := by
  have hfound := findField_eq name fields
  rw [lookup, soleField, List.countP_eq_length_filter]
  generalize fields.filter (·.1 = name) = found at hfound ⊢
  rcases found with - | ⟨x, - | ⟨x', xs⟩⟩ <;> simp_all [sole]

@[simp] theorem lookup_append (name : String) (xs ys : List (String × Json)) :
    lookup name (xs ++ ys) = exactlyOne (lookup name xs) (lookup name ys) := by
  rw [lookup_eq, List.filter_append, sole_append, lookup_eq, lookup_eq]

@[simp] theorem lookup_cons (name n : String) (j : Json) (rest : List (String × Json)) :
    lookup name ((n, j) :: rest) =
      exactlyOne (some (if n = name then some j else none)) (lookup name rest) := by
  rw [← List.singleton_append, lookup_append, lookup_eq name [(n, j)]]
  by_cases hn : n = name <;> simp [hn, sole]

@[simp] theorem lookup_field? (name n : String) (f : α → Json) (a : Option α) :
    lookup name (field? n f a) = some (if n = name then a.map f else none) := by
  cases a with
  | none => rw [field?, lookup_nil, Option.map_none, ite_self]
  | some a => by_cases h : n = name <;> simp [field?, h]

theorem required_eq (fields : List (String × Json)) (name : String) (read : Json → Option α) :
    required fields name read = (lookup name fields).join.bind read := by
  rw [required, lookup]
  rcases soleField name fields with - | - | found <;> rfl

theorem withDefault_eq (fields : List (String × Json)) (name : String) (default : α)
    (read : Json → Option α) :
    withDefault fields name default read =
      (lookup name fields).bind fun found => found.elim (some default) read := by
  rw [withDefault, lookup]
  rcases soleField name fields with - | - | found <;> rfl

theorem optional_of_lookup {f : α → Json} (a : Option α) (hread : ∀ b ∈ a, read (f b) = some b)
    (hnull : ∀ b, f b ≠ .null) (h : lookup name fields = some (a.map f)) :
    optional fields name read = some a := by
  rw [lookup] at h
  obtain ⟨found, hfound, hmap⟩ := Option.map_eq_some_iff.mp h
  unfold optional
  rw [hfound]
  cases a with
  | none =>
    rw [Option.map_none, Option.map_eq_none_iff] at hmap
    rw [hmap]
  | some a =>
    obtain ⟨⟨_, hj⟩, rfl, rfl⟩ := Option.map_eq_some_iff.mp hmap
    split
    · next h => cases h
    · next h => cases h
    · next h => exact absurd (congrArg Subtype.val (Option.some.inj (Option.some.inj h))) (hnull a)
    · next found _ h =>
      obtain rfl := Option.some.inj (Option.some.inj h)
      rw [hread a rfl]
      rfl

theorem exists_of_optional {a : α} {a? : Option α} (h : optional fields name read = some a?)
    (ha : a ∈ a?) : ∃ j, read j = some a := by
  obtain rfl := ha
  unfold optional at h
  split at h
  · cases h
  · cases h
  · cases h
  · next j _ _ =>
    obtain ⟨b, hb, hab⟩ := Option.map_eq_some_iff.mp h
    exact ⟨_, hb.trans hab⟩

end Lookup

theorem str?_str (s : String) : str? (.str s) = some s := rfl

theorem optional_str {name : String} {fields : List (String × Json)} (a : Option String)
    (h : lookup name fields = some (a.map .str)) : optional fields name str? = some a :=
  optional_of_lookup a (fun s _ => str?_str s) (fun _ => nofun) h

theorem int?_int {low high n : Int} (h : low ≤ n ∧ n ≤ high) :
    int? low high (.int n) = some n :=
  if_pos h

theorem uint8?_toNat (n : UInt8) : uint8? (.int n.toNat) = some n := by
  have := n.toNat_lt
  rw [uint8?, int?_int (by omega), Option.map_some, Int.toNat_natCast, UInt8.ofNat_toNat]

theorem uint32?_toNat (n : UInt32) : uint32? (.int n.toNat) = some n := by
  have := n.toNat_lt
  rw [uint32?, int?_int (by omega), Option.map_some, Int.toNat_natCast, UInt32.ofNat_toNat]

theorem int32?_toInt (n : Int32) : int32? (.int n.toInt) = some n := by
  have hlow := n.le_toInt
  have hhigh := n.toInt_lt
  rw [int32?, int?_int (by omega), Option.map_some, Int32.ofInt_toInt]

theorem int64?_toInt (n : Int64) : int64? (.int n.toInt) = some n := by
  have hlow := n.le_toInt
  have hhigh := n.toInt_lt
  rw [int64?, int?_int (by omega), Option.map_some, Int64.ofInt_toInt]

theorem char?_singleton (c : Char) : char? (.str (String.singleton c)) = some c := by
  simp [char?]

theorem list?_map {α : Type} {write : α → Json} {read : Json → Option α}
    (h : ∀ a, read (write a) = some a) (as : List α) :
    list? read (.arr (as.map write)) = some as := by
  rw [list?]
  induction as with
  | nil => rfl
  | cons a as ih => rw [List.map_cons, List.mapM_cons, h, ih]; rfl

end Json

open Json

theorem Style.ofJson?_name (style : Style) : ofJson? (.str style.name) = some style := by
  cases style <;> decide

theorem QuoteMark.ofJson?_name (mark : QuoteMark) : ofJson? (.str mark.name) = some mark := by
  cases mark <;> decide

theorem Shield.ofJson?_name (shield : Shield) : ofJson? (.str shield.name) = some shield := by
  cases shield <;> decide

theorem BlockKind.ofJson?_name (kind : BlockKind) : ofJson? (.str kind.name) = some kind :=
  ofName?_name kind

theorem Count.ofJson?_toJson (count : Count) : ofJson? count.toJson = some count := by
  cases count with
  | number n => rw [toJson, variant, ofJson?, int64?_toInt, Option.map_some]
  | character c => rw [toJson, variant, ofJson?, char?_singleton, Option.map_some]
  | text s => rw [toJson, variant, ofJson?, str?_str, Option.map_some]

theorem Count.toJson_ne_null (count : Count) : count.toJson ≠ .null := by
  cases count <;> simp [toJson, variant]

theorem Author.ofJson?_toJson (author : Author) : ofJson? author.toJson = some author := by
  have hemail : optional (("full_name", .str author.fullName) ::
      field? "email" .str author.email) "email" str? = some author.email :=
    optional_str author.email (by simp)
  simp [toJson, ofJson?, object?, required_eq, hemail, str?_str]

theorem Revision.ofJson?_toJson (r : Revision) : ofJson? r.toJson = some r := by
  simp [toJson, ofJson?, object?, withDefault_eq, str?_str]

theorem Marker.ofJson?_toJson (marker : Marker) : ofJson? marker.toJson = some marker := by
  cases marker <;>
    simp [toJson, variant, ofJson?, required_eq, uint8?_toNat, uint32?_toNat]

end Manuscript
