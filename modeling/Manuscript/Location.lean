import Manuscript.Line

namespace Manuscript.Location

def url (location : Location Element) : String :=
  location.scheme ++ plainText location.path

def baseName (cs : List Char) : List Char :=
  (cs.reverse.takeWhile (· ≠ '/')).reverse

def dropExtension (base : List Char) : List Char :=
  match base.reverse.dropWhile (· ≠ '.') with
  | [] => base
  | [_] => base
  | _ :: stem => stem.reverse

def stem (location : Location Element) : String :=
  String.ofList (dropExtension (baseName location.url.toList))

def isSchemeChar (c : Char) : Bool :=
  c.isAlphanum || c == '+' || c == '.' || c == '-'

def isAbsolute : List Char → Bool
  | [] => false
  | c :: rest => c.isAlpha && (rest.dropWhile isSchemeChar).head? == some ':'

def isRooted (cs : List Char) : Bool :=
  cs.head? == some '/'

def below (directory : String) (location : Location Element) : Location Element :=
  if directory = "" || location.scheme ≠ "" then location
  else
    let cs := location.url.toList
    if isRooted cs || isAbsolute cs then location
    else { location with
      path := merge (.text (Text.dropTrailing '/' directory ++ "/") :: location.path) }

theorem below_cases (directory : String) (location : Location Element) :
    below directory location = location ∨ below directory location = { location with
      path := merge (.text (Text.dropTrailing '/' directory ++ "/") :: location.path) } := by
  unfold below
  split
  · exact .inl rfl
  · dsimp only
    split
    · exact .inl rfl
    · exact .inr rfl

end Manuscript.Location
