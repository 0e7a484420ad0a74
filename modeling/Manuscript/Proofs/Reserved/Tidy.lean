import Manuscript.Document.Basic
import Manuscript.Proofs.Everywhere
import Manuscript.Proofs.Reserved.Clean
import Manuscript.Proofs.Dict
import Manuscript.Store

namespace Manuscript

namespace Value

def Credits (p : String → Prop) : Value → Prop
  | .authors people => ∀ a ∈ people, p a.fullName ∧ ∀ e ∈ a.email, p e
  | .revision r => p r.number ∧ p r.date ∧ p r.remark
  | _ => True

def Strings (p : String → Prop) : Value → Prop
  | .string s => p s
  | .roles names => ∀ name ∈ names, p name
  | value => value.Credits p

end Value

namespace Element

def Unmarked : Element → Prop
  | .text s => Clean s
  | .placeholder _ => False
  | .continued _ element => element.Unmarked
  | _ => True

def Tidy : Element → Prop
  | .text s => Clean s
  | .placeholder _ => False
  | .special name => Clean name
  | .symbol name => Clean name
  | .attributeReference name => Clean name
  | .crossReference id label => Clean id ∧ ∀ l ∈ label, Clean l
  | .link location _ => Clean location.scheme
  | .declaration _ value => value.Strings Clean
  | .sectionBlock _ attributes _ _ => ∀ entry ∈ attributes.entries, entry.2.Credits Clean
  | .continued _ element => element.Tidy
  | _ => True

theorem Tidy.unmarked {element : Element} (h : element.Tidy) : element.Unmarked := by
  induction element using Unmarked.induct with
  | case1 s => exact h
  | case2 reference => exact h
  | case3 offset element ih => exact ih h
  | case4 element htext hplaceholder hcontinued =>
    rw [Unmarked.eq_4 element htext hplaceholder hcontinued]
    trivial

theorem unmarked_withChildren (element : Element) (sequences : List (List Element)) :
    (element.withChildren sequences).Unmarked ↔ element.Unmarked := by
  fun_induction withChildren element sequences <;> simp_all [Unmarked]

theorem tidy_withChildren (element : Element) (sequences : List (List Element)) :
    (element.withChildren sequences).Tidy ↔ element.Tidy := by
  fun_induction withChildren element sequences <;> simp_all [Tidy]

end Element

def Value.Tidy (value : Value) : Prop :=
  value.Strings Clean ∧ ∀ s ∈ value.sequences, Everywhere Element.Tidy s

def Dict.Tidy (attributes : Attributes) : Prop :=
  ∀ entry ∈ attributes.entries, entry.2.Tidy

theorem tidy_merge (elements : List Element) :
    Everywhere Element.Tidy (merge elements) ↔ Everywhere Element.Tidy elements :=
  everywhere_merge (fun _ _ => clean_append) clean_empty elements

theorem unmarked_merge (elements : List Element) :
    Everywhere Element.Unmarked (merge elements) ↔ Everywhere Element.Unmarked elements :=
  everywhere_merge (fun _ _ => clean_append) clean_empty elements

theorem tidy_path_below {directory : String} (hd : Clean directory) {location : Location Element}
    (h : Everywhere Element.Tidy location.path) :
    Everywhere Element.Tidy (Location.below directory location).path := by
  refine everywhere_path_below (fun _ _ => clean_append) clean_empty ?_ h
  exact clean_append.mpr ⟨Text.clean_dropTrailing hd, by decide⟩

theorem clean_literalReference {name : String} (h : Clean name) : Clean (literalReference name) :=
  clean_append.mpr ⟨clean_append.mpr ⟨by decide, h⟩, by decide⟩

theorem clean_plain {x : Element} (h : x.Tidy) (hs : ∀ s ∈ x.children, Clean (plainText s)) :
    Clean x.plain := by
  cases x
  case text s => exact h
  case special name => exact h
  case symbol name => exact h
  case attributeReference name => exact clean_literalReference h
  case crossReference id label =>
    cases label with
    | none => exact h.1
    | some l => exact h.2 l rfl
  case quoted => exact hs _ List.mem_cons_self
  case quotation => exact hs _ List.mem_cons_self
  case passthrough => exact hs _ List.mem_cons_self
  case link => exact clean_append.mpr ⟨h, hs _ List.mem_cons_self⟩
  case documentReference => exact hs _ (List.mem_cons_of_mem _ List.mem_cons_self)
  case indexTerm => exact hs _ List.mem_cons_self
  all_goals exact clean_empty

theorem clean_plainText {elements : List Element} (h : Everywhere Element.Tidy elements) :
    Clean (plainText elements) := by
  induction elements using sequence_induction with
  | step elements ih =>
    induction elements with
    | nil => exact clean_empty
    | cons x rest ihrest =>
      obtain ⟨hx, hrest⟩ := everywhere_cons.mp h
      have hplain := clean_plain hx.1 fun s hs => ih x List.mem_cons_self s hs (hx.2.1 s hs)
      refine clean_append.mpr ⟨hplain, ihrest (fun y hy => ih y ?_) hrest⟩
      exact List.mem_cons_of_mem x hy

theorem Value.Tidy.clean_asText {value : Value} (h : value.Tidy) : Clean value.asText := by
  cases value with
  | nil => exact clean_empty
  | string s => exact h.1
  | bool b => cases b <;> decide
  | elements content => exact clean_plainText (h.2 _ List.mem_cons_self)
  | roles names => exact clean_intercalate (by decide) h.1
  | authors people =>
    refine clean_intercalate (by decide) fun name hname => ?_
    obtain ⟨author, ha, rfl⟩ := List.mem_map.mp hname
    exact (h.1 author ha).1
  | revision r => exact h.1.1

theorem Value.tidy_string {s : String} : (Value.string s).Tidy ↔ Clean s :=
  and_iff_left fun _ h => absurd h List.not_mem_nil

theorem Value.tidy_nil : Value.nil.Tidy :=
  ⟨trivial, fun _ h => absurd h List.not_mem_nil⟩

theorem tidy_declaration {name : String} {value : Value} :
    (Element.declaration name value).Throughout Element.Tidy ↔ value.Tidy := by
  constructor
  · rintro ⟨hstrings, -, hheld⟩
    exact ⟨hstrings, hheld⟩
  · rintro ⟨hstrings, hheld⟩
    exact ⟨hstrings, fun _ hs => absurd hs List.not_mem_nil, hheld⟩

namespace Dict.Tidy

variable {d other : Attributes}

theorem empty : Dict.Tidy (∅ : Attributes) := fun _ h => absurd h List.not_mem_nil

theorem insert (h : d.Tidy) {name : String} {value : Value} (hv : value.Tidy) :
    (d.insert name value).Tidy := by
  intro entry he
  rcases mem_insertEntry he with rfl | he
  · exact hv
  · exact h entry he

theorem union (h : d.Tidy) (hother : other.Tidy) : (d.union other).Tidy := by
  intro entry he
  exact (mem_union he).elim (h entry) (hother entry)

theorem find? (h : d.Tidy) {name : String} {value : Value} (hv : d.find? name = some value) :
    value.Tidy :=
  h (name, value) (mem_of_find? hv)

end Dict.Tidy

namespace Store

def Tidy (store : Store) : Prop :=
  store.live.Tidy ∧ store.overrides.Tidy

variable {store : Store}

theorem Tidy.find? (h : store.Tidy) {name : String} {value : Value}
    (hv : store.find? name = some value) : value.Tidy := by
  rcases Option.or_eq_some_iff.mp hv with hv | ⟨-, hv⟩
  · exact h.2.find? hv
  · exact h.1.find? hv

theorem Tidy.clean_text? (h : store.Tidy) {name s : String} (hs : store.text? name = some s) :
    Clean s := by
  rw [text?] at hs
  cases hv : store.find? name with
  | none => rw [hv] at hs; cases hs
  | some value =>
    rw [hv] at hs
    have hclean := (h.find? hv).clean_asText
    cases value <;> cases hs <;> exact hclean

theorem Tidy.clean_textD (h : store.Tidy) {name default : String} (hd : Clean default) :
    Clean (store.textD name default) := by
  rw [textD]
  cases hv : store.find? name with
  | none => exact hd
  | some value => exact (h.find? hv).clean_asText

theorem Tidy.set (h : store.Tidy) {name : String} {value : Value} (hv : value.Tidy) :
    (store.set name value).Tidy :=
  ⟨h.1.insert hv, h.2⟩

theorem Tidy.addAll (h : store.Tidy) {attributes : Attributes} (ha : attributes.Tidy) :
    (store.addAll attributes).Tidy :=
  ⟨h.1.union ha, h.2⟩

theorem Tidy.snapshot (h : store.Tidy) : store.snapshot.Tidy :=
  h.1.union h.2

theorem tidy_ofOverrides {overrides : Dict String} (h : ∀ entry ∈ overrides.entries, Clean entry.2) :
    (ofOverrides overrides).Tidy := by
  refine ⟨Dict.Tidy.empty, fun entry he => ?_⟩
  obtain ⟨original, ho, rfl⟩ := List.mem_map.mp he
  exact Value.tidy_string.mpr (h original ho)

end Store

end Manuscript
