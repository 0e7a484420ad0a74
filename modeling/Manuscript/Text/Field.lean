import Manuscript.Text.Class

namespace Manuscript.Text

def fields (sep : Char → Bool) : List Char → List (List Char)
  | [] => [[]]
  | c :: cs =>
      if sep c then [] :: fields sep cs
      else match fields sep cs with
        | [] => [[c]]
        | f :: fs => (c :: f) :: fs

def splitOn (sep : Char) (s : String) : List String :=
  (fields (· == sep) s.toList).map String.ofList

def words (s : String) : List String :=
  ((fields isBlank s.toList).filter (!·.isEmpty)).map String.ofList

def trimStart (cs : List Char) : List Char :=
  cs.dropWhile isBlank

def trimEnd (cs : List Char) : List Char :=
  (cs.reverse.dropWhile isBlank).reverse

def trim (s : String) : String :=
  String.ofList (trimEnd (trimStart s.toList))

def dropTrailing (c : Char) (s : String) : String :=
  String.ofList (s.toList.reverse.dropWhile (· == c)).reverse

def replace (old new : Char) (s : String) : String :=
  s.map fun c => if c = old then new else c

theorem fields_ne_nil (sep : Char → Bool) (cs : List Char) : fields sep cs ≠ [] := by
  cases cs with
  | nil => simp [fields]
  | cons c cs =>
    simp only [fields]
    split
    · simp
    · split <;> simp

end Manuscript.Text
