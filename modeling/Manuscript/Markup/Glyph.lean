import Manuscript.Fault
import Manuscript.Line

namespace Manuscript

inductive Glyph where
  | char (c : Char)
  | token (digits : List Char)
  deriving DecidableEq, Repr

namespace Glyph

def chars : Glyph → List Char
  | char c => [c]
  | token digits => reservedChar :: digits ++ [reservedChar]

def tokenRest? (cs : List Char) : Option (List Char × List Char) :=
  match cs.takeWhile Char.isDigit, cs.dropWhile Char.isDigit with
  | d :: ds, c :: rest => if c = reservedChar then some (d :: ds, rest) else none
  | _, _ => none

theorem append_of_tokenRest? {cs ds rest : List Char} (h : tokenRest? cs = some (ds, rest)) :
    cs = ds ++ reservedChar :: rest := by
  unfold tokenRest? at h
  split at h
  · next d ds' c rest' hd hr =>
    split at h
    · next hc =>
      simp only [Option.some.injEq, Prod.mk.injEq] at h
      rw [← List.takeWhile_append_dropWhile (p := Char.isDigit) (l := cs), hd, hr, ← h.1, ← h.2, hc]
    · simp at h
  · simp at h

theorem digits_of_tokenRest? {cs digits rest : List Char} (h : tokenRest? cs = some (digits, rest)) :
    digits ≠ [] ∧ ∀ d ∈ digits, d.isDigit := by
  unfold tokenRest? at h
  split at h
  · next d ds c rest' htake _ =>
    split at h
    · obtain ⟨rfl, -⟩ := Prod.mk.inj (Option.some.inj h)
      refine ⟨List.cons_ne_nil _ _, fun d hd => ?_⟩
      exact List.all_eq_true.mp List.all_takeWhile d (htake ▸ hd)
    · cases h
  · cases h

def scan : List Char → List Glyph
  | [] => []
  | c :: cs =>
      if c = reservedChar then
        match _h : tokenRest? cs with
        | some (digits, rest) => token digits :: scan rest
        | none => char c :: scan cs
      else char c :: scan cs
termination_by cs => cs.length
decreasing_by
  all_goals simp
  have := append_of_tokenRest? ‹_›
  simp [this]
  omega

theorem flatMap_chars_scan (cs : List Char) : (scan cs).flatMap chars = cs := by
  fun_induction scan cs with
  | case1 => rfl
  | case2 cs digits rest h ih => simp [chars, ih, append_of_tokenRest? h]
  | case3 _ _ ih => simp [chars, ih]
  | case4 _ _ _ ih => simp [chars, ih]

def number (digits : List Char) : Nat :=
  digits.foldl (fun n d => n * 10 + (d.toNat - '0'.toNat)) 0

def inRange (digits : List Char) : Bool :=
  number digits < UInt32.size

def reference (digits : List Char) : UInt32 :=
  UInt32.ofNat (number digits)

def element : Glyph → Element
  | char c => .text (String.singleton c)
  | token digits => .placeholder (reference digits)

def textOf (glyphs : List Glyph) : String :=
  String.ofList (glyphs.flatMap chars)

def content (glyphs : List Glyph) : List Element :=
  merge (glyphs.map element)

def headIs (p : Char → Bool) : List Glyph → Bool
  | char c :: _ => p c
  | _ => false

def atToken : List Glyph → Bool
  | token _ :: _ => true
  | _ => false

def isReserved (c : Char) : Bool := c == reservedChar

def atReserved (glyphs : List Glyph) : Bool :=
  atToken glyphs || headIs isReserved glyphs

def atNewline : List Glyph → Bool := headIs Cause.isNewline

def atLineEnd (glyphs : List Glyph) : Bool :=
  glyphs.isEmpty || atNewline glyphs

def startsWith : List Char → List Glyph → Bool
  | [], _ => true
  | c :: cs, char d :: rest => c == d && startsWith cs rest
  | _ :: _, _ => false

def isIntrawordMark (c : Char) : Bool :=
  c == '*' || c == '_' || c == '#' || c.toNat == 0x60 || c == '^' || c == '~'

def continuesWord : List Glyph → Bool
  | char c :: rest => Text.isWordChar c || (isIntrawordMark c && headIs Text.isWordChar rest)
  | _ => false

end Glyph

end Manuscript
