import Manuscript.Store
import Manuscript.Text.Class

namespace Manuscript.Identifier

def slugFrom (separator : List Char) (started pending : Bool) : List Char → List Char
  | [] => []
  | c :: cs =>
      if Text.isAlphanumeric c then
        (if started && pending then separator else []) ++
          (Text.lowercase c ++ slugFrom separator true false cs)
      else slugFrom separator started true cs

def slug (title : List Element) (separator : String) : String :=
  String.ofList (slugFrom separator.toList false false (plainText title).toList)

def isCustom (attributes : Attributes) : Bool :=
  match attributes.find? "@customID" with
  | some (.bool custom) => custom
  | some (.string s) => s == "true"
  | _ => false

def assign (store : Store) (attributes : Attributes) (title : List Element) : Attributes :=
  if isCustom attributes then attributes
  else attributes.insert "id"
    (.string (store.textD "idprefix" "_" ++ slug title (store.textD "idseparator" "_")))

end Manuscript.Identifier
