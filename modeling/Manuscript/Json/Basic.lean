namespace Manuscript

inductive Json where
  | null
  | bool (b : Bool)
  | int (n : Int)
  | inexact (written : String)
  | str (s : String)
  | arr (items : List Json)
  | obj (fields : List (String × Json))

namespace Json

def field? {α : Type} (name : String) (f : α → Json) : Option α → List (String × Json)
  | none => []
  | some a => [(name, f a)]

def variant (name : String) (payload : Json) : Json :=
  .obj [(name, payload)]

def findField (name : String) : (fields : List (String × Json)) →
    Option { j : Json // sizeOf j < sizeOf fields }
  | [] => none
  | (n, j) :: rest =>
      match findField name rest with
      | some ⟨k, h⟩ => some ⟨k, by simp; omega⟩
      | none => if n = name then some ⟨j, by simp; omega⟩ else none

theorem findField_cons (name n : String) (j : Json) (rest : List (String × Json)) :
    (findField name ((n, j) :: rest)).map (·.1) =
      ((findField name rest).map (·.1)).or (if n = name then some j else none) := by
  simp only [findField]
  cases findField name rest with
  | some k => rfl
  | none => by_cases h : n = name <;> simp [h]

def soleField (name : String) (fields : List (String × Json)) :
    Option (Option { j : Json // sizeOf j < sizeOf fields }) :=
  if fields.countP (·.1 = name) ≤ 1 then some (findField name fields) else none

end Json

end Manuscript
