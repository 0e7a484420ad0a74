import Manuscript.Text.Field

namespace Manuscript

inductive Change where
  | same (lines : List String)
  | removed (lines : List String)
  | added (lines : List String)
  deriving DecidableEq, Repr

namespace Diff

def row (line : String) (left corner : Nat) : List String → List Nat → List Nat
  | [], _ => []
  | other :: others, above =>
      let up := above.headD 0
      let length := if line = other then corner + 1 else max left up
      length :: row line length up others (above.drop 1)

def table (new : List String) (above : List Nat) : List String → List Nat
  | [] => []
  | line :: rest =>
      let lengths := row line 0 0 new above
      lengths ++ table new lengths rest

def gather (old new : Array String) (lengths : Array Nat) (i j : Nat) (found : List String) :
    List String :=
  match i, j with
  | i + 1, j + 1 =>
      let line := old.getD i ""
      if line = new.getD j "" then gather old new lengths i j (line :: found)
      else if i = 0 && j = 0 then found
      else if i = 0 ||
          lengths.getD ((i - 1) * new.size + j) 0 < lengths.getD (i * new.size + j - 1) 0 then
        gather old new lengths (i + 1) j found
      else gather old new lengths i (j + 1) found
  | _, _ => found
termination_by i + j

def common (old new : List String) : List String :=
  gather old.toArray new.toArray (table new [] old).toArray old.length new.length []

def linesOf (lines : List String) : List String :=
  if lines = [""] then [] else lines

def sharedStart : List String → List String → List String →
    List String × List String × List String × List String
  | a :: as, b :: bs, c :: cs =>
      if a = c && b = c then
        let (shared, rest) := sharedStart as bs cs
        (a :: shared, rest)
      else ([], a :: as, b :: bs, c :: cs)
  | as, bs, cs => ([], as, bs, cs)

def beforeCommon (lines common : List String) : List String :=
  match common with
  | [] => lines
  | c :: _ => lines.takeWhile (· ≠ c)

def rounds : Nat → List String → List String → List String → List Change
  | 0, _, _, _ => []
  | fuel + 1, old, new, common =>
      if old.isEmpty && new.isEmpty then []
      else
        let (shared, old, new, common) := sharedStart old new common
        let removed := beforeCommon old common
        let added := beforeCommon new common
        [.same shared, .removed removed, .added added] ++
          rounds fuel (old.drop removed.length) (new.drop added.length) common

def isEmpty : Change → Bool
  | .same lines | .removed lines | .added lines => lines.isEmpty

def changes (old new : String) : List Change :=
  let a := Text.splitOn '\n' old
  let b := Text.splitOn '\n' new
  (rounds (a.length + b.length) (linesOf a) (linesOf b) (linesOf (common a b))).filter
    (!isEmpty ·)

def render : Change → String
  | .same lines => " " ++ "\n".intercalate lines ++ "\n"
  | .removed lines => "-" ++ "\n".intercalate lines ++ "\n"
  | .added lines => "+" ++ "\n".intercalate lines ++ "\n"

end Diff

end Manuscript
