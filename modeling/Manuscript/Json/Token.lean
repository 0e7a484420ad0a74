namespace Manuscript.Json

inductive Token where
  | openArray
  | closeArray
  | openObject
  | closeObject
  | colon
  | comma
  | null
  | bool (b : Bool)
  | int (n : Int)
  | inexact (written : String)
  | str (s : String)
  deriving DecidableEq, Repr

namespace Token

def hexValue (c : Char) : Option Nat :=
  if '0' ≤ c ∧ c ≤ '9' then some (c.toNat - '0'.toNat)
  else if 'a' ≤ c ∧ c ≤ 'f' then some (c.toNat - 'a'.toNat + 10)
  else if 'A' ≤ c ∧ c ≤ 'F' then some (c.toNat - 'A'.toNat + 10)
  else none

def codeUnit (a b c d : Char) : Option Nat := do
  return (((← hexValue a) * 16 + (← hexValue b)) * 16 + (← hexValue c)) * 16 + (← hexValue d)

def isHigh (u : Nat) : Bool := 0xD800 ≤ u && u < 0xDC00

def isLow (u : Nat) : Bool := 0xDC00 ≤ u && u < 0xE000

def simpleEscape : Char → Option Char
  | '"' => some '"'
  | '\\' => some '\\'
  | '/' => some '/'
  | 'b' => some (Char.ofNat 8)
  | 'f' => some (Char.ofNat 12)
  | 'n' => some '\n'
  | 'r' => some '\r'
  | 't' => some '\t'
  | _ => none

def string : List Char → Option (List Char × List Char)
  | [] => none
  | '\\' :: 'u' :: a :: b :: c :: d :: '\\' :: 'u' :: e :: f :: g :: h :: rest =>
      match codeUnit a b c d with
      | none => none
      | some u =>
          if isHigh u then
            match codeUnit e f g h with
            | none => none
            | some v =>
                if isLow v then
                  (string rest).map fun (s, r) =>
                    (Char.ofNat (0x10000 + (u - 0xD800) * 0x400 + (v - 0xDC00)) :: s, r)
                else none
          else if isLow u then none
          else (string ('\\' :: 'u' :: e :: f :: g :: h :: rest)).map fun (s, r) =>
            (Char.ofNat u :: s, r)
  | '\\' :: 'u' :: a :: b :: c :: d :: rest =>
      match codeUnit a b c d with
      | none => none
      | some u =>
          if isHigh u || isLow u then none
          else (string rest).map fun (s, r) => (Char.ofNat u :: s, r)
  | '\\' :: e :: rest =>
      match simpleEscape e with
      | none => none
      | some c => (string rest).map fun (s, r) => (c :: s, r)
  | c :: rest =>
      if c = '"' then some ([], rest)
      else if c = '\\' || c.toNat < 32 then none
      else (string rest).map fun (s, r) => (c :: s, r)

def digits (cs : List Char) : List Char × List Char :=
  (cs.takeWhile Char.isDigit, cs.dropWhile Char.isDigit)

def value (ds : List Char) : Nat :=
  ds.foldl (fun n d => n * 10 + (d.toNat - '0'.toNat)) 0

def fraction : List Char → Option (List Char × List Char)
  | '.' :: rest =>
      match digits rest with
      | ([], _) => none
      | (ds, r) => some ('.' :: ds, r)
  | cs => some ([], cs)

def exponentSign : List Char → List Char × List Char
  | '+' :: rest => (['+'], rest)
  | '-' :: rest => (['-'], rest)
  | cs => ([], cs)

def isExponentMark (c : Char) : Bool := c == 'e' || c == 'E'

def exponent : List Char → Option (List Char × List Char)
  | [] => some ([], [])
  | c :: rest =>
      if isExponentMark c then
        match digits (exponentSign rest).2 with
        | ([], _) => none
        | (ds, r) => some (c :: (exponentSign rest).1 ++ ds, r)
      else some ([], c :: rest)

def whole : List Char → Option (List Char × List Char)
  | [] => none
  | c :: rest =>
      if c = '0' then some (['0'], rest)
      else if c.isDigit then some (digits (c :: rest))
      else none

def ofParts (negative : Bool) (ds tail : List Char) : Token :=
  let sign := if negative then ['-'] else []
  if tail.isEmpty && !(negative && value ds == 0) then
    .int (if negative then - (value ds : Int) else value ds)
  else .inexact (String.ofList (sign ++ ds ++ tail))

def unsigned (negative : Bool) (cs : List Char) : Option (Token × List Char) := do
  let (ds, rest) ← whole cs
  let (frac, rest) ← fraction rest
  let (exp, rest) ← exponent rest
  return (ofParts negative ds (frac ++ exp), rest)

def number : List Char → Option (Token × List Char)
  | '-' :: rest => unsigned true rest
  | cs => unsigned false cs

def isSpace (c : Char) : Bool :=
  c == ' ' || c == '\n' || c == '\t' || c == '\r'

def next : List Char → Option (Token × List Char)
  | '[' :: rest => some (.openArray, rest)
  | ']' :: rest => some (.closeArray, rest)
  | '\x7b' :: rest => some (.openObject, rest)
  | '\x7d' :: rest => some (.closeObject, rest)
  | ':' :: rest => some (.colon, rest)
  | ',' :: rest => some (.comma, rest)
  | '"' :: rest => (string rest).map fun (s, r) => (.str (String.ofList s), r)
  | 'n' :: 'u' :: 'l' :: 'l' :: rest => some (.null, rest)
  | 't' :: 'r' :: 'u' :: 'e' :: rest => some (.bool true, rest)
  | 'f' :: 'a' :: 'l' :: 's' :: 'e' :: rest => some (.bool false, rest)
  | cs => number cs

theorem length_digits (cs : List Char) : (digits cs).2.length ≤ cs.length :=
  (List.dropWhile_suffix _).length_le

theorem length_string {cs s r : List Char} (h : string cs = some (s, r)) :
    r.length < cs.length := by
  fun_induction string cs generalizing s r <;>
    simp_all only [Option.map_eq_some_iff, Prod.exists, reduceCtorEq, Option.some.injEq,
      Prod.mk.injEq, List.length_cons] <;> grind

theorem length_whole {cs ds r : List Char} (h : whole cs = some (ds, r)) :
    r.length < cs.length := by
  unfold whole at h
  split at h
  · simp at h
  · next c rest =>
    split at h
    · simp_all
    · split at h
      · next hd =>
        have := length_digits rest
        simp only [digits, List.takeWhile_cons, hd, List.dropWhile_cons, if_true] at h this
        simp only [Option.some.injEq, Prod.mk.injEq] at h
        rw [← h.2]; simp; omega
      · simp at h

theorem length_fraction {cs ds r : List Char} (h : fraction cs = some (ds, r)) :
    r.length ≤ cs.length := by
  unfold fraction at h
  split at h
  · next rest =>
    have := length_digits rest
    split at h <;> simp_all
    omega
  · simp_all

theorem length_exponentSign (cs : List Char) : (exponentSign cs).2.length ≤ cs.length := by
  unfold exponentSign
  split <;> simp

theorem length_exponent {cs ds r : List Char} (h : exponent cs = some (ds, r)) :
    r.length ≤ cs.length := by
  unfold exponent at h
  split at h
  · simp_all
  · next c rest =>
    have h1 := length_exponentSign rest
    have h2 := length_digits (exponentSign rest).2
    split at h
    · split at h <;> simp_all
      omega
    · simp_all

theorem length_unsigned {negative : Bool} {cs r : List Char} {t : Token}
    (h : unsigned negative cs = some (t, r)) : r.length < cs.length := by
  simp only [unsigned, Option.bind_eq_bind, Option.bind_eq_some_iff, Prod.exists,
    Option.pure_def, Option.some.injEq, Prod.mk.injEq] at h
  obtain ⟨ds, r1, h1, frac, r2, h2, exp, r3, h3, -, rfl⟩ := h
  have := length_whole h1
  have := length_fraction h2
  have := length_exponent h3
  omega

theorem length_number {cs r : List Char} {t : Token} (h : number cs = some (t, r)) :
    r.length < cs.length := by
  unfold number at h
  split at h
  · have := length_unsigned h
    simp; omega
  · exact length_unsigned h

theorem length_next {cs r : List Char} {t : Token} (h : next cs = some (t, r)) :
    r.length < cs.length := by
  unfold next at h
  split at h
  case h_7 =>
    simp only [Option.map_eq_some_iff, Prod.exists, Prod.mk.injEq] at h
    obtain ⟨s, r', hs, -, rfl⟩ := h
    have := length_string hs
    simp; omega
  case h_11 => exact length_number h
  all_goals
    simp only [Option.some.injEq, Prod.mk.injEq] at h
    obtain ⟨-, rfl⟩ := h
    simp only [List.length_cons]
    omega

def scan : List Char → Option (List Token)
  | [] => some []
  | c :: rest =>
      if isSpace c then scan rest
      else match _h : next (c :: rest) with
        | none => none
        | some (t, r) => (scan r).map (t :: ·)
termination_by cs => cs.length
decreasing_by
  · simp
  · have := length_next ‹_›
    simpa using this

end Token

end Manuscript.Json
