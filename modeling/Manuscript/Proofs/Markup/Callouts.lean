import Mathlib.Algebra.Group.Nat.Defs
import Manuscript.Proofs.Grammar.Opening
import Manuscript.Proofs.Markup.Range

namespace Manuscript

open Glyph Pending Reader

namespace Construct

theorem opens_calloutNumber : calloutNumber.Opens ['<'] :=
  Opens.bind (Opens.literal rfl).bind

theorem run_calloutNumber_of_ne {c : Char} (hc : c ≠ '<') (rest : List Glyph) :
    calloutNumber.run (.char c :: rest) = none :=
  opens_calloutNumber.run_eq_none (List.mem_singleton.not.mpr hc) rest

end Construct

theorem Numeral.glyphs_callout (digits : List Char) :
    (Numeral.callout digits).glyphs = ('<' :: (digits ++ ['>'])).map .char := by
  rw [Numeral.glyphs, List.map_cons, List.map_append]
  rfl

section Line

variable {cs : List Char} {glyphs rest : List Glyph}

inductive Trailing : List Char → Prop
  | spaces (n : Nat) : Trailing (List.replicate n ' ')
  | callout (n : Nat) {digits rest : List Char} : digits ≠ [] → (∀ d ∈ digits, d.isDigit) →
      Trailing rest → Trailing (List.replicate n ' ' ++ ('<' :: digits ++ '>' :: rest))

def restOfLine (cs : List Char) : List Char :=
  cs.takeWhile fun c => !Cause.isNewline c

theorem Trailing.space (h : Trailing cs) : Trailing (' ' :: cs) := by
  cases h with
  | spaces n => exact .spaces (n + 1)
  | callout n hne hdigits hrest => exact .callout (n + 1) hne hdigits hrest

theorem closesLine_replicate (h : ClosesLine glyphs) (n : Nat) :
    ClosesLine ((List.replicate n ' ').map .char ++ glyphs) := by
  induction n with
  | zero => exact h
  | succ n ih => exact .space ih

theorem Trailing.closesLine (h : Trailing cs) (hrest : atLineEnd rest) :
    ClosesLine (cs.map .char ++ rest) := by
  induction h with
  | spaces n => exact closesLine_replicate (.finish hrest) n
  | @callout n digits cs hne hdigits _ ih =>
    have hglyphs : (List.replicate n ' ' ++ ('<' :: digits ++ '>' :: cs)).map Glyph.char ++ rest =
        (List.replicate n ' ').map .char ++
          ((Numeral.callout digits).glyphs ++ (cs.map .char ++ rest)) := by
      rw [Numeral.glyphs_callout]
      simp
    rw [hglyphs]
    exact closesLine_replicate (.callout hne hdigits ih) n

theorem atLineEnd_dropWhile (cs : List Char) :
    atLineEnd ((cs.dropWhile fun c => !Cause.isNewline c).map .char) := by
  cases hdrop : cs.dropWhile fun c => !Cause.isNewline c with
  | nil => rfl
  | cons c rest =>
    have hne : cs.dropWhile (fun c => !Cause.isNewline c) ≠ [] := by rw [hdrop]; exact List.cons_ne_nil _ _
    have hc := List.head_dropWhile_not (fun c => !Cause.isNewline c) hne
    simpa [hdrop, atLineEnd, atNewline, headIs] using hc

theorem trailing_of_closesLine (h : ClosesLine glyphs) (hglyphs : glyphs = cs.map .char) :
    Trailing (restOfLine cs) := by
  induction h generalizing cs with
  | @finish rest hend =>
    subst hglyphs
    cases cs with
    | nil => exact .spaces 0
    | cons c cs =>
      have hc : Cause.isNewline c = true := hend
      rw [restOfLine, List.takeWhile_cons_of_neg (by simp [hc])]
      exact .spaces 0
  | space _ ih =>
    obtain ⟨c, cs, rfl, hc, hcs⟩ := List.map_eq_cons_iff.mp hglyphs.symm
    obtain rfl := Glyph.char.inj hc
    rw [restOfLine, List.takeWhile_cons_of_pos (by decide)]
    exact (ih hcs.symm).space
  | @callout digits rest hne hdigits _ ih =>
    rw [Numeral.glyphs_callout] at hglyphs
    obtain ⟨front, cs, rfl, hfront, hcs⟩ := List.map_eq_append_iff.mp hglyphs.symm
    obtain rfl := (List.map_injective_iff.mpr fun _ _ => Glyph.char.inj) hfront
    have hdigit : ∀ d ∈ digits, (!Cause.isNewline d) = true := by
      intro d hd
      rw [Bool.not_eq_true', Cause.isNewline, Bool.or_eq_false_iff]
      constructor <;>
      · refine beq_eq_false_iff_ne.mpr ?_
        rintro rfl
        exact absurd (hdigits _ hd) (by decide)
    have hline : ∀ c ∈ '<' :: (digits ++ ['>']), (!Cause.isNewline c) = true :=
      List.forall_mem_cons.mpr ⟨by decide, List.forall_mem_append.mpr ⟨hdigit, by decide⟩⟩
    have hrest : restOfLine ('<' :: (digits ++ ['>']) ++ cs) =
        List.replicate 0 ' ' ++ ('<' :: digits ++ '>' :: restOfLine cs) := by
      rw [restOfLine, List.takeWhile_append_of_pos hline, restOfLine]
      simp
    rw [hrest]
    exact .callout 0 hne hdigits (ih hcs.symm)

theorem closesLine_iff_trailing : ClosesLine (cs.map .char) ↔ Trailing (restOfLine cs) := by
  refine ⟨fun h => trailing_of_closesLine h rfl, fun h => ?_⟩
  have hcloses := h.closesLine (atLineEnd_dropWhile cs)
  rwa [← List.map_append, restOfLine, List.takeWhile_append_dropWhile] at hcloses

end Line

structure TrailingCallout (cs before digits after : List Char) : Prop where
  occurs : cs = before ++ ('<' :: digits ++ '>' :: after)
  nonempty : digits ≠ []
  digits : ∀ d ∈ digits, d.isDigit
  trailing : Trailing (restOfLine after)

inductive Piece where
  | glyph (g : Glyph)
  | callout (digits : List Char)

namespace Piece

def glyphs : Piece → List Glyph
  | glyph g => [g]
  | callout digits => (Numeral.callout digits).glyphs

def chars (piece : Piece) : List Char :=
  piece.glyphs.flatMap Glyph.chars

def element : Piece → Element
  | glyph g => g.element
  | callout digits => .callout (reference digits)

end Piece

inductive Settled : List Piece → Prop
  | nil : Settled []
  | glyph {g : Glyph} {pieces : List Piece} :
      Construct.calloutNumber.run (g :: pieces.flatMap Piece.glyphs) = none → Settled pieces →
      Settled (.glyph g :: pieces)
  | callout {digits : List Char} {pieces : List Piece} : digits ≠ [] → (∀ d ∈ digits, d.isDigit) →
      ClosesLine (pieces.flatMap Piece.glyphs) → Settled pieces → Settled (.callout digits :: pieces)

namespace Settled

variable {pieces : List Piece} {cs : List Char}

theorem chars (hcs : ∀ c ∈ cs, c ≠ '<') (h : Settled pieces) :
    Settled (cs.map (fun c => .glyph (.char c)) ++ pieces) := by
  induction cs with
  | nil => exact h
  | cons c cs ih =>
    obtain ⟨hc, hcs⟩ := List.forall_mem_cons.mp hcs
    exact .glyph (Construct.run_calloutNumber_of_ne hc _) (ih hcs)

theorem eq_append_of_not_mem {g : Glyph} {xs rest before after : List Glyph} (hg : g ∉ xs)
    (h : xs ++ rest = before ++ g :: after) :
    ∃ middle, before = xs ++ middle ∧ rest = middle ++ g :: after := by
  obtain ⟨middle, hbefore, hrest⟩ | ⟨middle, hxs, hafter⟩ := List.append_eq_append_iff.mp h
  · exact ⟨middle, hbefore, hrest⟩
  · cases middle with
    | nil => exact ⟨[], by rw [hxs, List.append_nil, List.append_nil], hafter.symm⟩
    | cons m middle =>
      obtain ⟨rfl, -⟩ := List.cons.inj hafter
      exact absurd (hxs ▸ List.mem_append_right before List.mem_cons_self) hg

theorem exists_callout (h : Settled pieces) {before after : List Glyph} {digits : List Char}
    (he : pieces.flatMap Piece.glyphs = before ++ ((Numeral.callout digits).glyphs ++ after))
    (hne : digits ≠ []) (hdigits : ∀ d ∈ digits, d.isDigit) (hcloses : ClosesLine after) :
    ∃ ps qs, pieces = ps ++ .callout digits :: qs ∧ ps.flatMap Piece.glyphs = before ∧
      qs.flatMap Piece.glyphs = after := by
  have hnumber := Construct.run_calloutNumber_eq_some_iff.mpr
    ⟨(rfl : (Numeral.callout digits).glyphs ++ after = _), hne, hdigits, hcloses⟩
  induction h generalizing before with
  | nil => exact absurd he.symm (by simp [Numeral.glyphs_callout])
  | @glyph g pieces hnone hsettled ih =>
    rw [List.flatMap_cons, Piece.glyphs, List.singleton_append] at he
    cases before with
    | nil =>
      rw [he, List.nil_append, hnumber] at hnone
      cases hnone
    | cons b before =>
      obtain ⟨rfl, hrest⟩ := List.cons.inj he
      obtain ⟨ps, qs, rfl, rfl, hqs⟩ := ih hrest
      exact ⟨.glyph g :: ps, qs, rfl, rfl, hqs⟩
  | @callout ds pieces hne' hdigits' hcloses' hsettled ih =>
    rw [List.flatMap_cons, Piece.glyphs] at he
    cases before with
    | nil =>
      have hother := Construct.run_calloutNumber_eq_some_iff.mpr ⟨he.symm, hne', hdigits', hcloses'⟩
      rw [List.nil_append, hnumber] at hother
      obtain ⟨rfl, rfl⟩ := Prod.mk.inj (Option.some.inj hother)
      exact ⟨[], pieces, rfl, rfl, rfl⟩
    | cons b before =>
      -- No bracket opens inside the first callout, so the other one comes after it.
      have hangle : Glyph.char '<' ∉ (ds ++ ['>']).map Glyph.char := by
        rw [List.mem_map_of_injective fun _ _ => Glyph.char.inj, List.mem_append, not_or]
        exact ⟨fun hmem => absurd (hdigits' _ hmem) (by decide), by decide⟩
      rw [Numeral.glyphs_callout, List.map_cons, List.cons_append, List.cons_append] at he
      obtain ⟨rfl, hrest⟩ := List.cons.inj he
      obtain ⟨middle, rfl, hmiddle⟩ := eq_append_of_not_mem hangle hrest
      obtain ⟨ps, qs, rfl, rfl, hqs⟩ := ih hmiddle
      refine ⟨.callout ds :: ps, qs, rfl, ?_, hqs⟩
      rw [List.flatMap_cons, Piece.glyphs, Numeral.glyphs_callout]
      rfl

theorem of_append {ps qs : List Piece} {digits : List Char}
    (h : Settled (ps ++ .callout digits :: qs)) :
    digits ≠ [] ∧ (∀ d ∈ digits, d.isDigit) ∧ ClosesLine (qs.flatMap Piece.glyphs) := by
  induction ps with
  | nil =>
    obtain _ | _ | ⟨hne, hdigits, hcloses, -⟩ := h
    exact ⟨hne, hdigits, hcloses⟩
  | cons p ps ih =>
    obtain _ | ⟨-, hrest⟩ | ⟨-, -, -, hrest⟩ := h
    · exact ih hrest
    · exact ih hrest

theorem callout_iff (h : Settled pieces) (hcs : pieces.flatMap Piece.glyphs = cs.map .char)
    (before digits after : List Char) :
    (∃ ps qs, pieces = ps ++ .callout digits :: qs ∧ ps.flatMap Piece.chars = before ∧
      qs.flatMap Piece.chars = after) ↔ TrailingCallout cs before digits after := by
  have hchars {ps : List Piece} {front : List Char}
      (hps : ps.flatMap Piece.glyphs = front.map .char) : ps.flatMap Piece.chars = front := by
    rw [← flatMap_chars_map_char front, ← hps, List.flatMap_assoc]
    rfl
  constructor
  · rintro ⟨ps, qs, rfl, rfl, rfl⟩
    obtain ⟨hne, hdigits, hcloses⟩ := h.of_append
    rw [List.flatMap_append, List.flatMap_cons, Piece.glyphs, Numeral.glyphs_callout] at hcs
    obtain ⟨front, rest, rfl, hfront, hrest⟩ := List.map_eq_append_iff.mp hcs.symm
    obtain ⟨middle, back, rfl, hmiddle, hback⟩ := List.map_eq_append_iff.mp hrest
    obtain rfl := (List.map_injective_iff.mpr fun _ _ => Glyph.char.inj) hmiddle
    rw [← hback, closesLine_iff_trailing] at hcloses
    rw [hchars hfront.symm, hchars hback.symm]
    exact ⟨by simp, hne, hdigits, hcloses⟩
  · rintro ⟨rfl, hne, hdigits, htrailing⟩
    have hoccurs : pieces.flatMap Piece.glyphs =
        before.map .char ++ ((Numeral.callout digits).glyphs ++ after.map .char) := by
      rw [hcs, Numeral.glyphs_callout]
      simp
    obtain ⟨ps, qs, hpieces, hps, hqs⟩ :=
      h.exists_callout hoccurs hne hdigits (closesLine_iff_trailing.mpr htrailing)
    exact ⟨ps, qs, hpieces, hchars hps, hchars hqs⟩

end Settled

namespace Fragment

variable {options : Options} {glyphs : List Glyph}

theorem exists_chars_of_word {c : Char} (hc : Text.isWordChar c) (rest : List Glyph) :
    ∃ cs : List Char, .char c :: (breakAt (fun glyphs => !continuesWord glyphs) rest).1 =
      cs.map .char ∧ ∀ d ∈ cs, inWord d := by
  have hin := inWord_of_mem_word hc rest
  have hreserved : inWord reservedChar = false := by
    rw [inWord, isWordChar_reservedChar]
    decide
  obtain ⟨cs, hcs, -⟩ := exists_chars_of_plain (plain_of_chars hin hreserved)
  refine ⟨cs, hcs, fun d hd => ?_⟩
  obtain ⟨e, he, hd⟩ := hin (.char d) (hcs ▸ List.mem_map_of_mem hd)
  rwa [Glyph.char.inj he]

theorem run_callouts_eq_some {xs : List Element} {left : List Glyph}
    (h : (construct options .callouts).run glyphs = some (xs, left)) :
    ∃ digits, xs = [.callout (reference digits)] ∧
      Construct.calloutNumber.run glyphs = some (digits, left) := by
  change ((Construct.calloutNumber.run _).bind _).bind _ = _ at h
  cases hnumber : Construct.calloutNumber.run glyphs with
  | none => rw [hnumber] at h; cases h
  | some found =>
    rw [hnumber] at h
    obtain ⟨rfl, rfl⟩ := Prod.mk.inj (Option.some.inj h)
    exact ⟨found.1, rfl, rfl⟩

theorem run_calloutNumber_of_untaken (h : (construct options .callouts).take? glyphs = none) :
    Construct.calloutNumber.run glyphs = none := by
  have hnone := Opens.take?_eq_none (Construct.opens_calloutNumber.bind.bind) h
  change ((Construct.calloutNumber.run _).bind _).bind _ = none at hnone
  cases hnumber : Construct.calloutNumber.run glyphs with
  | none => rfl
  | some found => rw [hnumber] at hnone; cases hnone

theorem exists_settled_read (options : Options) (glyphs : List Glyph) :
    ∃ pieces, Settled pieces ∧ pieces.flatMap Piece.glyphs = glyphs ∧
      merge (read (construct options .callouts) glyphs) = merge (pieces.map Piece.element) := by
  fun_induction read (construct options .callouts) glyphs with
  | case1 => exact ⟨[], .nil, rfl, rfl⟩
  | case2 digits rest ih =>
    obtain ⟨pieces, hsettled, hpieces, hmerge⟩ := ih
    refine ⟨.glyph (.token digits) :: pieces, .glyph rfl hsettled, congrArg (_ :: ·) hpieces, ?_⟩
    rw [List.map_cons, Piece.element, Glyph.element, merge_cons rfl, merge_cons rfl, hmerge]
  | case3 c rest elements left htake ih =>
    obtain ⟨pieces, hsettled, hpieces, hmerge⟩ := ih
    obtain ⟨digits, rfl, hnumber⟩ := run_callouts_eq_some (take?_eq_some_iff.mp htake)
    obtain ⟨he, hne, hdigits, hcloses⟩ := Construct.run_calloutNumber_eq_some_iff.mp hnumber
    rw [← hpieces] at he hcloses
    refine ⟨.callout digits :: pieces, .callout hne hdigits hcloses hsettled, he.symm, ?_⟩
    rw [List.singleton_append, List.map_cons, Piece.element, merge_cons rfl, merge_cons rfl, hmerge]
  | case4 c rest htake hword split ih =>
    obtain ⟨pieces, hsettled, hpieces, hmerge⟩ := ih
    have hangle : inWord '<' = false := by decide +kernel
    have hrest : split.1 ++ split.2 = rest := breakAt_append ..
    obtain ⟨cs, hcs, hin⟩ := exists_chars_of_word hword rest
    have hplain : ∀ d ∈ cs, d ≠ '<' := by
      rintro d hd rfl
      exact absurd (hin _ hd) (by simp [hangle])
    refine ⟨_, hsettled.chars hplain, ?_, ?_⟩
    · have hchars : (cs.map fun c => Piece.glyph (.char c)).flatMap Piece.glyphs = cs.map .char := by
        rw [List.flatMap_map]
        exact List.map_eq_flatMap.symm
      rw [List.flatMap_append, hchars, hpieces, ← hcs, List.cons_append, hrest]
    · have helements : (cs.map fun c => Piece.glyph (.char c)).map Piece.element =
          (cs.map Glyph.char).map Glyph.element := by
        rw [List.map_map, List.map_map]
        rfl
      rw [hcs, textOf, flatMap_chars_map_char, List.map_append, helements]
      exact merge_append_congr (merge_map_char cs).symm hmerge
  | case5 c rest htake hword ih =>
    obtain ⟨pieces, hsettled, hpieces, hmerge⟩ := ih
    have hnone := run_calloutNumber_of_untaken htake
    rw [← hpieces] at hnone
    refine ⟨_, .glyph hnone hsettled, congrArg (_ :: ·) hpieces, ?_⟩
    rw [List.map_cons, Piece.element, Glyph.element, merge, merge, hmerge]

theorem outOfRange?_callouts_eq_none {cs : List Char}
    (hrange : ∀ before digits after, TrailingCallout cs before digits after →
      number digits < UInt32.size) : outOfRange? .callouts 0 (cs.map .char) = none := by
  refine outOfRange?_eq_none_iff.mpr fun before mark ⟨after, he, hstands⟩ => ?_
  obtain ⟨front, rest, rfl, rfl, hrest⟩ := List.map_eq_append_iff.mp he
  obtain ⟨middle, back, rfl, hmiddle, rfl⟩ := List.map_eq_append_iff.mp hrest
  cases mark with
  | token digits =>
    have hmem : Glyph.token digits ∈ middle.map .char := hmiddle.symm ▸ List.mem_singleton_self _
    obtain ⟨c, -, he⟩ := List.mem_map.mp hmem
    cases he
  | callout digits =>
    obtain ⟨-, hne, hdigits, hcloses⟩ := hstands
    rw [Numeral.glyphs_callout] at hmiddle
    obtain rfl := (List.map_injective_iff.mpr fun _ _ => Glyph.char.inj) hmiddle
    have htrailing : TrailingCallout (front ++ ('<' :: (digits ++ ['>']) ++ back)) front digits back :=
      ⟨by simp, hne, hdigits, closesLine_iff_trailing.mp hcloses⟩
    exact decide_eq_true (hrange _ _ _ htrailing)

/-- The callouts that are read are those with nothing but further ones and spaces up to the end of their line, and
every other character comes back as text in its place. -/
theorem callouts_iff_trailing (options : Options) {text : String} (hclean : Clean text)
    (hrange : ∀ before digits after, TrailingCallout text.toList before digits after →
      number digits < UInt32.size) :
    ∃ pieces : List Piece, pieces.flatMap Piece.chars = text.toList ∧
      parse .callouts options text = .ok (merge (pieces.map Piece.element)) ∧
      (∀ g, .glyph g ∈ pieces → ∃ c, g = .char c) ∧
      (∀ before digits after, (∃ ps qs, pieces = ps ++ .callout digits :: qs ∧
          ps.flatMap Piece.chars = before ∧ qs.flatMap Piece.chars = after) ↔
        TrailingCallout text.toList before digits after) ∧
      ∀ digits, .callout digits ∈ pieces → (reference digits).toNat = number digits := by
  obtain ⟨pieces, hsettled, hpieces, hmerge⟩ := exists_settled_read options (spell text)
  have hiff := hsettled.callout_iff (show _ = text.toList.map Glyph.char from hpieces)
  have hparse : parse .callouts options text = .ok (merge (pieces.map Piece.element)) := by
    have hscan := scan_of_clean hclean
    have hnone := outOfRange?_callouts_eq_none hrange
    rw [parse_of_inRange (by decide) (hscan ▸ hnone), hscan, hmerge]
  refine ⟨pieces, ?_, hparse, fun g hg => ?_, hiff, fun digits hmem => ?_⟩
  · rw [← flatMap_chars_spell text, ← hpieces, List.flatMap_assoc]
    rfl
  · have hmem : g ∈ spell text :=
      hpieces ▸ List.mem_flatMap.mpr ⟨.glyph g, hg, List.mem_singleton_self g⟩
    obtain ⟨c, -, rfl⟩ := List.mem_map.mp hmem
    exact ⟨c, rfl⟩
  · obtain ⟨ps, qs, hsplit⟩ := List.append_of_mem hmem
    exact UInt32.toNat_ofNat_of_lt' (hrange _ _ _ ((hiff _ _ _).mp ⟨ps, qs, hsplit, rfl, rfl⟩))

theorem number_lt {digits : List Char} (h : ∀ d ∈ digits, d.isDigit) :
    number digits < 10 ^ digits.length := by
  induction digits using List.reverseRecOn with
  | nil => exact Nat.one_pos
  | append_singleton digits d ih =>
    obtain ⟨hdigits, hd⟩ := List.forall_mem_append.mp h
    have hbound : d.toNat - '0'.toNat < 10 := by
      have hd := List.forall_mem_singleton.mp hd
      simp only [Char.isDigit, Bool.and_eq_true, decide_eq_true_eq, UInt32.le_iff_toNat_le] at hd
      change d.toNat - 48 < 10
      have hle : d.toNat ≤ 57 := hd.2
      omega
    have hsmaller := ih hdigits
    rw [number, List.foldl_append, List.length_append, List.length_singleton, Nat.pow_succ]
    change number digits * 10 + (d.toNat - '0'.toNat) < _
    omega

theorem callouts_iff_trailing_letter :
    Clean "<1>b<2>\r" ∧
    (∀ before digits after, TrailingCallout "<1>b<2>\r".toList before digits after →
      number digits < UInt32.size) ∧
    ∃ pieces : List Piece, pieces.flatMap Piece.chars = "<1>b<2>\r".toList ∧
      parse .callouts ⟨none⟩ "<1>b<2>\r" = .ok (merge (pieces.map Piece.element)) ∧
      ∃ ps qs, pieces = ps ++ .callout ['2'] :: qs ∧ ps.flatMap Piece.chars = "<1>b".toList ∧
        qs.flatMap Piece.chars = ['\r'] := by
  have hclean : Clean "<1>b<2>\r" := by decide
  have hrange : ∀ before digits after, TrailingCallout "<1>b<2>\r".toList before digits after →
      number digits < UInt32.size := by
    intro before digits after h
    have hlength := congrArg List.length h.occurs
    have hwhole : ("<1>b<2>\r".toList).length = 8 := rfl
    rw [hwhole] at hlength
    simp only [List.length_append, List.length_cons] at hlength
    have hpow : 10 ^ digits.length ≤ 10 ^ 6 := Nat.pow_le_pow_right (by decide) (by omega)
    exact (number_lt h.digits).trans_le (hpow.trans (by decide))
  obtain ⟨pieces, hpieces, hparse, -, hiff, -⟩ := callouts_iff_trailing ⟨none⟩ hclean hrange
  refine ⟨hclean, hrange, pieces, hpieces, hparse, (hiff _ _ _).mpr ?_⟩
  exact ⟨rfl, List.cons_ne_nil _ _, by decide, .spaces 0⟩

end Fragment

end Manuscript
