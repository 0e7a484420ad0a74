import Manuscript.Element.Plain
import Manuscript.Text.Field

namespace Manuscript.Header

def authorKey (key : String) (index : Nat) : String :=
  if index = 0 then key else key ++ "_" ++ toString (index + 1)

def namePart (part : String) : String :=
  Text.replace '_' ' ' (Text.trim part)

def nameParts (fullName : String) : List String :=
  match Text.words fullName with
  | [] => [""]
  | [first] => [namePart first]
  | [first, last] => [namePart first, namePart last]
  | first :: middle :: last => [namePart first, namePart middle, namePart (" ".intercalate last)]

def nameFields : List String → List (String × String)
  | [first, last] => [("firstname", first), ("lastname", last)]
  | [first, middle, last] => [("firstname", first), ("middlename", middle), ("lastname", last)]
  | first :: _ => [("firstname", first)]
  | [] => []

def initials (parts : List String) : String :=
  String.ofList (parts.filterMap fun part => part.toList.head?)

def email? (author : Author) : Option String := do
  let email := Text.trim (← author.email)
  if email = "" then none else some email

def normalized (author : Author) : Author :=
  ⟨" ".intercalate (nameParts author.fullName), email? author⟩

def authorFields (author : Author) : List (String × String) :=
  let parts := nameParts author.fullName
  nameFields parts ++
    [("author", (normalized author).fullName), ("authorinitials", initials parts)] ++
    (email? author).toList.map ("email", ·)

def authorEntries (index : Nat) : List Author → List (String × Value)
  | [] => []
  | author :: rest =>
      (authorFields author).map (fun (key, value) => (authorKey key index, .string value)) ++
        authorEntries (index + 1) rest

def expandAuthors (people : List Author) : Attributes :=
  Dict.ofList (authorEntries 0 people ++ [("authors", .authors (people.map normalized))])

def expandRevision (r : Revision) : Attributes :=
  let parts := [("revnumber", r.number), ("revdate", r.date), ("revremark", r.remark)]
  let shown := parts.filter fun (_, s) => s ≠ ""
  Dict.ofList (shown.map (fun (key, s) => (key, .string s)) ++ [("revision", .revision r)])

def authorsOf (attributes : Attributes) : Attributes :=
  match attributes.find? "authors" with
  | some (.authors people) => expandAuthors people
  | _ => ∅

def revisionOf (attributes : Attributes) : Attributes :=
  match attributes.find? "revision" with
  | some (.revision r) => expandRevision r
  | _ => ∅

def collect (found : Attributes) : List Element → Attributes × List Element
  | [] => (found, [])
  | element :: rest =>
      match element with
      | .sectionBlock level attributes title elements =>
          if level = 0 then
            let (all, others) :=
              collect ((found.union (authorsOf attributes)).union (revisionOf attributes)) rest
            let kept := (attributes.erase "authors").erase "revision"
            (all, .sectionBlock level kept title elements :: others)
          else (found, element :: rest)
      | .declaration name value =>
          let (all, others) := collect (found.insert name value) rest
          (all, element :: others)
      | .reset name =>
          let (all, others) := collect (found.insert name .nil) rest
          (all, element :: others)
      | .blankLine | .comment _ =>
          let (all, others) := collect found rest
          (all, element :: others)
      | _ => (found, element :: rest)

end Manuscript.Header
