import Manuscript.Proofs.Skeleton

namespace Manuscript.Header

def enter (found : Attributes) : Element → Attributes
  | .sectionBlock _ attributes _ _ =>
      (found.union (authorsOf attributes)).union (revisionOf attributes)
  | .declaration name value => found.insert name value
  | .reset name => found.insert name .nil
  | _ => found

theorem collect_fst (found : Attributes) (elements : List Element) :
    (collect found elements).1 = (elements.takeWhile inHeader).foldl enter found := by
  fun_induction collect found elements <;>
    simp_all +zetaDelta [enter, inHeader, List.takeWhile_cons]

def credited? (name : String) (attributes : Attributes) : Option Value :=
  ((revisionOf attributes).find? name).or ((authorsOf attributes).find? name)

def declared? (name : String) (x : Element) : Option Value :=
  x.declared?.bind fun (other, value) => if other = name then some value else none

def written? (name : String) (x : Element) : Option Value :=
  match x with
  | .sectionBlock _ attributes _ _ => credited? name attributes
  | x => declared? name x

def last? (value? : Element → Option Value) (elements : List Element) : Option Value :=
  elements.reverse.findSome? value?

variable {name : String}

theorem find?_enter (found : Attributes) (x : Element) :
    (enter found x).find? name = (written? name x).or (found.find? name) := by
  cases x
  case sectionBlock => simp [enter, written?, credited?, Dict.find?_union, Option.or_assoc]
  case declaration other value | reset other =>
    by_cases h : other = name <;>
      simp [enter, written?, declared?, Element.declared?, Dict.find?_insert, h]
  all_goals rfl

theorem find?_foldl {write : Attributes → Element → Attributes} {value? : Element → Option Value}
    (h : ∀ found x, (write found x).find? name = (value? x).or (found.find? name))
    (found : Attributes) (elements : List Element) :
    (elements.foldl write found).find? name = (last? value? elements).or (found.find? name) := by
  induction elements generalizing found with
  | nil => rfl
  | cons x rest ih =>
    rw [List.foldl_cons, ih, h, last?, last?, List.reverse_cons, List.findSome?_append,
      Option.or_assoc]
    simp

theorem find?_collect (elements : List Element) :
    (collect ∅ elements).1.find? name = last? (written? name) (elements.takeWhile inHeader) := by
  rw [collect_fst, find?_foldl find?_enter, Dict.find?_empty, Option.or_none]

end Manuscript.Header
