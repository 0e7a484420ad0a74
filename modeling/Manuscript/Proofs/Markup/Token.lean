import Manuscript.Proofs.Markup.Yields
import Manuscript.Proofs.Merged
import Manuscript.Proofs.Reserved.Clean

namespace Manuscript

namespace Glyph

def digits? : Glyph → Option (List Char)
  | char _ => none
  | token digits => some digits

def numerals (glyphs : List Glyph) : List (List Char) :=
  glyphs.filterMap digits?

def tokens (glyphs : List Glyph) : List UInt32 :=
  (numerals glyphs).map reference

@[simp] theorem numerals_append (t u : List Glyph) :
    numerals (t ++ u) = numerals t ++ numerals u :=
  List.filterMap_append

@[simp] theorem numerals_token_cons (digits : List Char) (t : List Glyph) :
    numerals (token digits :: t) = digits :: numerals t := rfl

@[simp] theorem numerals_map_char (cs : List Char) : numerals (cs.map .char) = [] := by
  rw [numerals, List.filterMap_map]
  exact List.filterMap_eq_nil_iff.mpr fun _ _ => rfl

@[simp] theorem numerals_spell (s : String) : numerals (spell s) = [] :=
  numerals_map_char s.toList

theorem exists_chars_of_tokenless {t : List Glyph} (h : numerals t = []) :
    ∃ cs : List Char, t = cs.map .char := by
  induction t with
  | nil => exact ⟨[], rfl⟩
  | cons g t ih =>
    cases g with
    | token digits => cases h
    | char c =>
      obtain ⟨cs, rfl⟩ := ih h
      exact ⟨c :: cs, rfl⟩

@[simp] theorem tokens_append (t u : List Glyph) : tokens (t ++ u) = tokens t ++ tokens u := by
  rw [tokens, numerals_append, List.map_append]
  rfl

@[simp] theorem tokens_map_char (cs : List Char) : tokens (cs.map .char) = [] :=
  congrArg (List.map reference) (numerals_map_char cs)

@[simp] theorem tokens_spell (s : String) : tokens (spell s) = [] :=
  tokens_map_char s.toList

theorem Plain.tokens_eq_nil {t : List Glyph} (h : Plain t) : tokens t = [] := by
  obtain ⟨cs, rfl, -⟩ := exists_chars_of_plain h
  exact tokens_map_char cs

theorem scan_append_of_not_mem {cs : List Char} (h : reservedChar ∉ cs) (rest : List Char) :
    scan (cs ++ rest) = cs.map .char ++ scan rest := by
  induction cs with
  | nil => rfl
  | cons c cs ih =>
    obtain ⟨hc, hcs⟩ := List.ne_and_not_mem_of_not_mem_cons h
    rw [List.cons_append, scan, if_neg (Ne.symm hc), ih hcs]
    rfl

theorem scan_of_clean {text : String} (h : Clean text) : scan text.toList = spell text := by
  have hscan := scan_append_of_not_mem h []
  rwa [List.append_nil, scan, List.append_nil] at hscan

theorem tokenRest?_of_digits {digits : List Char} (hne : digits ≠ [])
    (h : ∀ d ∈ digits, d.isDigit) (rest : List Char) :
    tokenRest? (digits ++ reservedChar :: rest) = some (digits, rest) := by
  have hstop : ¬ reservedChar.isDigit := by decide
  have htake : (digits ++ reservedChar :: rest).takeWhile Char.isDigit = digits := by
    rw [List.takeWhile_append_of_pos h, List.takeWhile_cons_of_neg hstop, List.append_nil]
  have hdrop : (digits ++ reservedChar :: rest).dropWhile Char.isDigit = reservedChar :: rest := by
    rw [List.dropWhile_append_of_pos h, List.dropWhile_cons_of_neg hstop]
  obtain ⟨d, ds, rfl⟩ := List.exists_cons_of_ne_nil hne
  rw [tokenRest?, htake, hdrop]
  rfl

theorem scan_token {digits : List Char} (hne : digits ≠ []) (h : ∀ d ∈ digits, d.isDigit)
    (rest : List Char) :
    scan (chars (token digits) ++ rest) = token digits :: scan rest := by
  have htext : chars (token digits) ++ rest = reservedChar :: (digits ++ reservedChar :: rest) := by
    simp [chars]
  rw [htext, scan, if_pos rfl]
  split
  · next ds after hr =>
    rw [tokenRest?_of_digits hne h, Option.some.injEq, Prod.mk.injEq] at hr
    obtain ⟨rfl, rfl⟩ := hr
    rfl
  · next hr =>
    rw [tokenRest?_of_digits hne h] at hr
    cases hr

def digitsOf (reference : UInt32) : List Char :=
  Nat.toDigits 10 reference.toNat

theorem digitsOf_ne_nil (reference : UInt32) : digitsOf reference ≠ [] :=
  Nat.toDigits_ne_nil

theorem isDigit_of_mem_digitsOf {reference : UInt32} {d : Char} (h : d ∈ digitsOf reference) :
    d.isDigit :=
  Nat.isDigit_of_mem_toDigits (by decide) (by decide) h

theorem number_digitsOf (n : UInt32) : number (digitsOf n) = n.toNat := by
  calc number (digitsOf n)
    _ = Nat.ofDigitChars 10 (digitsOf n) 0 := by
        rw [Nat.ofDigitChars_eq_foldl, number]
        congr 1
        funext k d
        rw [Nat.mul_comm]
    _ = n.toNat := Nat.ofDigitChars_ten_toDigits

theorem reference_digitsOf (n : UInt32) : reference (digitsOf n) = n := by
  rw [reference, number_digitsOf, UInt32.ofNat_toNat]

theorem inRange_digitsOf (n : UInt32) : inRange (digitsOf n) := by
  rw [inRange, number_digitsOf]
  exact decide_eq_true n.toNat_lt

end Glyph

namespace Pending

open Glyph

theorem toList_token (n : UInt32) :
    (Pending.token n).toList = chars (.token (digitsOf n)) := by
  simp [Pending.token, chars, digitsOf, Nat.toList_repr]

theorem scan_token_append (n : UInt32) (rest : List Char) :
    scan ((Pending.token n).toList ++ rest) = .token (digitsOf n) :: scan rest := by
  rw [toList_token, scan_token (digitsOf_ne_nil n) fun _ => isDigit_of_mem_digitsOf]

def Unforged (line : Line) : Prop :=
  ∀ s, .text s ∈ line → Clean s

def countAside (line : Line) : Nat :=
  (line.filter (!·.isText)).length

def lineGlyphs : Nat → Line → List Glyph
  | _, [] => []
  | k, .text s :: rest => s.toList.map .char ++ lineGlyphs k rest
  | k, _ :: rest => .token (digitsOf (UInt32.ofNat (k + 1))) :: lineGlyphs (k + 1) rest

def linesGlyphs : Nat → List Line → List Glyph
  | _, [] => []
  | k, [line] => lineGlyphs k line
  | k, line :: rest => lineGlyphs k line ++ .char '\n' :: linesGlyphs (k + countAside line) rest

theorem countAside_text_cons (s : String) (rest : Line) :
    countAside (.text s :: rest) = countAside rest := rfl

theorem countAside_cons {element : Element} (h : element.isText = false) (rest : Line) :
    countAside (element :: rest) = countAside rest + 1 := by
  rw [countAside, List.filter_cons, h]
  rfl

theorem length_setAside_cons (line : Line) (lines : List Line) :
    (setAside (line :: lines)).length = countAside line + (setAside lines).length := by
  rw [setAside, List.flatten_cons, List.filter_append, List.length_append]
  rfl

theorem last_registerAll {elements : List Element} {pending : Pending} {k : Nat}
    (h : pending.last = UInt32.ofNat k) :
    (registerAll elements pending).last = UInt32.ofNat (k + elements.length) := by
  obtain ⟨last, entries⟩ := pending
  obtain rfl : last = UInt32.ofNat k := h
  rw [registerAll_eq]

theorem writeLine_text_fst (s : String) (line : Line) (pending : Pending) :
    ((writeLine (.text s :: line)).run pending).1 = s ++ ((writeLine line).run pending).1 := rfl

theorem writeLine_fst {element : Element} (h : element.isText = false) (line : Line)
    (pending : Pending) :
    ((writeLine (element :: line)).run pending).1 =
      Pending.token (pending.register element).last ++
        ((writeLine line).run (pending.register element)).1 := by
  rw [writeLine.eq_3 element line (ne_text_of_not_isText h)]
  rfl

theorem last_register {pending : Pending} {k : Nat} (h : pending.last = UInt32.ofNat k)
    (element : Element) : (pending.register element).last = UInt32.ofNat (k + 1) := by
  rw [register, h, UInt32.ofNat_add]
  rfl

theorem toList_writeLine {pending : Pending} {k : Nat} (hk : pending.last = UInt32.ofNat k)
    (line : Line) :
    ((writeLine line).run pending).1.toList = (lineGlyphs k line).flatMap chars := by
  fun_induction lineGlyphs k line generalizing pending with
  | case1 => rfl
  | case2 k s rest ih =>
    rw [writeLine_text_fst, String.toList_append, ih hk, List.flatMap_append, List.flatMap_map]
    exact congrArg (· ++ _) (List.flatMap_singleton' _).symm
  | case3 k x rest hne ih =>
    have hlast := last_register hk x
    rw [writeLine_fst (not_isText_of_ne hne), String.toList_append, toList_token, hlast, ih hlast,
      List.flatMap_cons]

theorem scan_writeLine {line : Line} (h : Unforged line) {pending : Pending} {k : Nat}
    (hk : pending.last = UInt32.ofNat k) (rest : List Char) :
    scan (((writeLine line).run pending).1.toList ++ rest) = lineGlyphs k line ++ scan rest := by
  induction line generalizing pending k with
  | nil => exact congrArg scan (List.nil_append rest)
  | cons element line ih =>
    have hline : Unforged line := fun s hs => h s (List.mem_cons_of_mem _ hs)
    cases htext : element.isText with
    | true =>
      obtain ⟨s, rfl⟩ := eq_text_of_isText htext
      rw [writeLine_text_fst, String.toList_append, List.append_assoc,
        scan_append_of_not_mem (h s List.mem_cons_self), ih hline hk, lineGlyphs,
        List.append_assoc]
    | false =>
      have hlast := last_register hk element
      rw [writeLine_fst htext, String.toList_append, List.append_assoc, scan_token_append, hlast,
        ih hline hlast, lineGlyphs.eq_3 k element line (ne_text_of_not_isText htext)]
      rfl

theorem scan_lines {lines : List Line} (h : ∀ line ∈ lines, Unforged line) {pending : Pending}
    {k : Nat} (hk : pending.last = UInt32.ofNat k) :
    scan ("\n".intercalate ((lines.mapM writeLine).run pending).1).toList =
      linesGlyphs k lines := by
  induction lines generalizing pending k with
  | nil =>
    change scan ("\n".intercalate []).toList = _
    simp [scan, linesGlyphs]
  | cons line lines ih =>
    obtain ⟨hline, hlines⟩ := List.forall_mem_cons.mp h
    have hrun : ((List.mapM writeLine (line :: lines)).run pending).1 =
        ((writeLine line).run pending).1 ::
          ((lines.mapM writeLine).run ((writeLine line).run pending).2).1 := by
      rw [List.mapM_cons]
      rfl
    have hlast : ((writeLine line).run pending).2.last = UInt32.ofNat (k + countAside line) := by
      rw [writeLine_snd]
      exact last_registerAll hk
    rw [hrun]
    cases lines with
    | nil =>
      have hwritten := scan_writeLine hline hk []
      rw [List.append_nil, scan, List.append_nil] at hwritten
      exact hwritten
    | cons next lines =>
      have hbreak : reservedChar ∉ "\n".toList := by decide
      rw [String.intercalate_cons_of_ne_nil, String.toList_append, String.toList_append,
        List.append_assoc, scan_writeLine hline hk, scan_append_of_not_mem hbreak,
        ih hlines hlast]
      · rfl
      · rw [List.mapM_cons]
        exact List.cons_ne_nil _ _

theorem scan_serialized {lines : List Line} (h : ∀ line ∈ lines, Unforged line) :
    scan (serialized lines).toList = linesGlyphs 0 lines :=
  @scan_lines lines h empty 0 rfl

theorem numbers_succ (start count : Nat) :
    numbers start (count + 1) = UInt32.ofNat start :: numbers (start + 1) count := by
  rw [numbers, List.range'_succ, List.map_cons]
  rfl

theorem numbers_add (start m n : Nat) :
    numbers start (m + n) = numbers start m ++ numbers (start + m) n := by
  rw [numbers, ← List.range'_append_1, List.map_append]
  rfl

theorem numerals_lineGlyphs (k : Nat) (line : Line) :
    numerals (lineGlyphs k line) = (numbers (k + 1) (countAside line)).map digitsOf := by
  fun_induction lineGlyphs k line with
  | case1 => rfl
  | case2 k s rest ih => rw [numerals_append, numerals_map_char, ih, countAside_text_cons]; rfl
  | case3 k element rest hne ih =>
    rw [numerals_token_cons, ih, countAside_cons (not_isText_of_ne hne), numbers_succ, List.map_cons]

theorem numerals_linesGlyphs (k : Nat) (lines : List Line) :
    numerals (linesGlyphs k lines) = (numbers (k + 1) (setAside lines).length).map digitsOf := by
  fun_induction linesGlyphs k lines with
  | case1 => rfl
  | case2 k line =>
    rw [numerals_lineGlyphs, length_setAside_cons]
    rfl
  | case3 k line rest _ ih =>
    have hbreak : numerals (.char '\n' :: linesGlyphs (k + countAside line) rest) =
        numerals (linesGlyphs (k + countAside line) rest) := rfl
    rw [numerals_append, numerals_lineGlyphs, hbreak, ih, length_setAside_cons, numbers_add,
      List.map_append, Nat.add_right_comm]

theorem numerals_scan_serialized {lines : List Line} (h : ∀ line ∈ lines, Unforged line) :
    numerals (scan (serialized lines).toList) =
      (numbers 1 (setAside lines).length).map digitsOf := by
  rw [scan_serialized h, numerals_linesGlyphs]

theorem tokens_scan_serialized {lines : List Line} (h : ∀ line ∈ lines, Unforged line) :
    tokens (scan (serialized lines).toList) = numbers 1 (setAside lines).length := by
  rw [tokens, numerals_scan_serialized h, List.map_map]
  exact (List.map_congr_left fun n _ => reference_digitsOf n).trans (List.map_id _)

theorem char_ne_reserved_of_mem_lineGlyphs {k : Nat} {line : Line} (h : Unforged line) {c : Char}
    (hc : .char c ∈ lineGlyphs k line) : c ≠ reservedChar := by
  fun_induction lineGlyphs k line with
  | case1 => cases hc
  | case2 k s rest ih =>
    rcases List.mem_append.mp hc with hc | hc
    · obtain ⟨d, hd, he⟩ := List.mem_map.mp hc
      obtain rfl := Glyph.char.inj he
      rintro rfl
      exact h s List.mem_cons_self hd
    · exact ih (fun s hs => h s (List.mem_cons_of_mem _ hs)) hc
  | case3 k element rest _ ih =>
    rcases List.mem_cons.mp hc with hc | hc
    · cases hc
    · exact ih (fun s hs => h s (List.mem_cons_of_mem _ hs)) hc

theorem char_ne_reserved_of_mem_scan {lines : List Line} (h : ∀ line ∈ lines, Unforged line)
    {c : Char} (hc : .char c ∈ scan (serialized lines).toList) : c ≠ reservedChar := by
  rw [scan_serialized h] at hc
  generalize 0 = k at hc
  fun_induction linesGlyphs k lines with
  | case1 => cases hc
  | case2 k line => exact char_ne_reserved_of_mem_lineGlyphs (h line List.mem_cons_self) hc
  | case3 k line rest _ ih =>
    obtain ⟨hline, hrest⟩ := List.forall_mem_cons.mp h
    rcases List.mem_append.mp hc with hc | hc
    · exact char_ne_reserved_of_mem_lineGlyphs hline hc
    · rcases List.mem_cons.mp hc with hc | hc
      · obtain rfl := Glyph.char.inj hc
        decide
      · exact ih hrest hc

end Pending

end Manuscript
