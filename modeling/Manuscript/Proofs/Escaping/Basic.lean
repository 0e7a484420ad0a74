import Manuscript.Proofs.Dict
import Manuscript.Proofs.Markup.Visible
import Manuscript.Proofs.Passthroughs.Basic
import Manuscript.Proofs.Reserved.Clean

namespace Manuscript

def isRaw (c : Char) : Bool := c == '<' || c == '>' || c == '&'

def Safe (s : String) : Prop := ∀ c ∈ s.toList, isRaw c = false

instance (s : String) : Decidable (Safe s) :=
  inferInstanceAs (Decidable (∀ c ∈ s.toList, isRaw c = false))

section

variable {s t : String}

theorem safe_append : Safe (s ++ t) ↔ Safe s ∧ Safe t := by
  simp [Safe, or_imp, forall_and]

theorem safe_empty : Safe "" := by simp [Safe]

theorem safe_singleton {c : Char} : Safe (String.singleton c) ↔ isRaw c = false := by
  simp [Safe]

theorem safe_ofList {cs : List Char} : Safe (String.ofList cs) ↔ ∀ c ∈ cs, isRaw c = false := by
  simp [Safe]

theorem Safe.of_subset (h : Safe s) (hsub : t.toList ⊆ s.toList) : Safe t :=
  fun c hc => h c (hsub hc)

theorem Safe.trim (h : Safe s) : Safe (Text.trim s) :=
  h.of_subset (Text.toList_trim_sublist s).subset

theorem Safe.of_mem_splitOn {sep : Char} (h : Safe s) (ht : t ∈ Text.splitOn sep s) : Safe t := by
  obtain ⟨field, hfield, rfl⟩ := List.mem_map.mp ht
  exact safe_ofList.mpr fun c hc => h c (Text.mem_of_mem_fields hfield hc)

theorem Safe.dropTrailing {c : Char} (h : Safe s) : Safe (Text.dropTrailing c s) := by
  refine safe_ofList.mpr fun d hd => h d ?_
  exact List.mem_reverse.mp ((List.dropWhile_sublist _).mem (List.mem_reverse.mp hd))

theorem not_raw_of {p : Char → Bool} (hp : (p '<' || p '>' || p '&') = false) {c : Char} (h : p c) :
    isRaw c = false := by
  by_contra hraw
  simp only [isRaw, Bool.not_eq_false, Bool.or_eq_true, beq_iff_eq] at hraw
  rcases hraw with (rfl | rfl) | rfl <;> simp [h] at hp

theorem safe_toString_nat (n : Nat) : Safe (toString n) := by
  intro c hc
  rw [Nat.toString_eq_repr, Nat.repr, String.toList_ofList] at hc
  exact not_raw_of (p := Char.isDigit) (by decide) (Nat.isDigit_of_mem_toDigits (by decide) (by decide) hc)

theorem safe_literalReference (h : Safe s) : Safe (literalReference s) := by
  simp only [literalReference, safe_append]
  exact ⟨⟨by decide, h⟩, by decide⟩

end

namespace Value

def strings : Value → List String
  | .string s => [s]
  | .roles names => names
  | .authors people => people.flatMap fun author => author.fullName :: author.email.toList
  | .revision r => [r.number, r.date, r.remark]
  | _ => []

end Value

def stringsOf (entries : List (String × Value)) : List String :=
  entries.flatMap fun entry => entry.1 :: entry.2.strings

def Count.strings : Count → List String
  | .number _ => []
  | .character c => [String.singleton c]
  | .text s => [s]

def CounterUse.strings (use : CounterUse) : List String :=
  use.name :: use.pinned.toList.flatMap Count.strings

namespace Element

def strings : Element → List String
  | .text s => [s]
  | .special name => [name]
  | .symbol name => [name]
  | .attributeReference name => [name]
  | .counter use => use.strings
  | .quoted _ attributes _ => stringsOf attributes.entries
  | .link location attributes => location.scheme :: stringsOf attributes.entries
  | .image location attributes => location.scheme :: stringsOf attributes.entries
  | .icon name attributes => name :: stringsOf attributes.entries
  | .crossReference id label => id :: label.toList
  | .documentReference location _ => [location.scheme]
  | .footnote reference _ => reference.toList
  | .footnoteReference _ reference _ => reference.toList
  | .hiddenIndexTerm first second third => first :: (second.toList ++ third.toList)
  | .sectionBlock _ attributes _ _ => stringsOf attributes.entries
  | .paragraph attributes _ => stringsOf attributes.entries
  | .lineBlock _ attributes _ => stringsOf attributes.entries
  | .elementBlock _ attributes _ => stringsOf attributes.entries
  | .imageBlock location attributes => location.scheme :: stringsOf attributes.entries
  | .listItem _ attributes _ => stringsOf attributes.entries
  | .labeledItem _ _ attributes _ => stringsOf attributes.entries
  | .continued _ element => element.strings
  | .declaration name value => name :: value.strings
  | .reset name => [name]
  | .comment s => [s]
  | _ => []

def Escaped : Element → Prop
  | .special name => name ∈ ["<", ">", "&"]
  | .crossReference _ _ => True
  | .continued _ element => element.Escaped
  | element => ∀ s ∈ element.strings, Safe s

theorem stringsOf_withSequences (entries : List (String × Value)) (sequences : List (List Element)) :
    stringsOf (withSequences entries sequences) = stringsOf entries := by
  fun_induction withSequences entries sequences <;> simp_all [stringsOf, Value.strings]

theorem escaped_withChildren (x : Element) (sequences : List (List Element)) :
    (x.withChildren sequences).Escaped ↔ x.Escaped := by
  fun_induction withChildren x sequences <;>
    simp_all [Escaped, strings, stringsOf_withSequences]

end Element

@[simp] theorem escaped_text {s : String} : (Element.text s).Escaped ↔ Safe s := by
  simp [Element.Escaped, Element.strings]

theorem escaped_text_append (s t : String) :
    (Element.text (s ++ t)).Escaped ↔ (Element.text s).Escaped ∧ (Element.text t).Escaped := by
  rw [escaped_text, escaped_text, escaped_text, safe_append]

theorem escaped_text_empty : (Element.text "").Escaped := escaped_text.mpr safe_empty

abbrev AllEscaped (elements : List Element) : Prop := Everywhere Element.Escaped elements

theorem escaped_merge (elements : List Element) : AllEscaped (merge elements) ↔ AllEscaped elements :=
  everywhere_merge escaped_text_append escaped_text_empty elements

theorem escaped_leaf {x : Element} (h : x.Escaped) (hchildren : x.children = [])
    (hheld : x.held = []) : AllEscaped [x] :=
  everywhere_leaf h hchildren hheld

theorem escaped_singleton {x : Element} (h : x.Escaped)
    (hchildren : ∀ s ∈ x.children, AllEscaped s) (hheld : x.held = []) :
    AllEscaped [x] := by
  refine everywhere_singleton.mpr ⟨h, hchildren, ?_⟩
  simp [hheld]

def EscapedEntries (entries : List (String × Value)) : Prop :=
  ∀ entry ∈ entries, Safe entry.1 ∧ (∀ s ∈ entry.2.strings, Safe s) ∧
    ∀ s ∈ entry.2.sequences, AllEscaped s

namespace EscapedEntries

variable {entries : List (String × Value)}

theorem strings (h : EscapedEntries entries) : ∀ s ∈ stringsOf entries, Safe s := by
  refine List.forall_mem_flatMap.mpr fun entry he => ?_
  exact List.forall_mem_cons.mpr ⟨(h entry he).1, (h entry he).2.1⟩

theorem sequences (h : EscapedEntries entries) :
    ∀ s ∈ sequencesOf entries, AllEscaped s := by
  rw [sequencesOf_eq_flatMap]
  exact List.forall_mem_flatMap.mpr fun entry he => (h entry he).2.2

theorem nil : EscapedEntries [] := fun _ he => absurd he List.not_mem_nil

theorem cons {entry : String × Value} : EscapedEntries (entry :: entries) ↔
    EscapedEntries [entry] ∧ EscapedEntries entries := by
  simp [EscapedEntries]

theorem ofList (h : EscapedEntries entries) :
    EscapedEntries (Dict.ofList entries : Attributes).entries :=
  fun entry he => h entry (Dict.mem_ofList he)

theorem string {name s : String} (hname : Safe name) (hs : Safe s) :
    EscapedEntries [(name, .string s)] := by
  simp [EscapedEntries, Value.strings, Value.sequences, hname, hs]

end EscapedEntries

end Manuscript
