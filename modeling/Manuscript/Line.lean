import Manuscript.Element.Plain
import Manuscript.Text.Field

namespace Manuscript

def pushText (s : String) : List Element → List Element
  | .text t :: rest => .text (s ++ t) :: rest
  | elements => if s = "" then elements else .text s :: elements

def merge : List Element → List Element
  | [] => []
  | .text s :: rest => pushText s (merge rest)
  | element :: rest => element :: merge rest

def fragment (s : String) : Line :=
  if s = "" then [] else [.text s]

def prependTo (start : Line) : List Line → List Line
  | [] => [start]
  | line :: rest => (start ++ line) :: rest

def joinLines : List Line → List Line → List Line
  | [], after => after
  | [line], after => prependTo line after
  | line :: rest, after => line :: joinLines rest after

def splitLine : Line → List Line
  | [] => [[]]
  | .text s :: rest => joinLines ((Text.splitOn '\n' s).map fragment) (splitLine rest)
  | element :: rest => prependTo [element] (splitLine rest)

def splitLines (lines : List Line) : List Line :=
  lines.flatMap splitLine

theorem plainText_pushText (s : String) (elements : List Element) :
    plainText (pushText s elements) = s ++ plainText elements := by
  unfold pushText
  split
  · simp [plainText, Element.plain, String.append_assoc]
  · split <;> simp_all [plainText, Element.plain]

theorem plainText_merge (elements : List Element) :
    plainText (merge elements) = plainText elements := by
  fun_induction merge elements <;> simp_all [plainText, plainText_pushText, Element.plain]

end Manuscript
