import Mathlib.Data.List.TakeWhile
import Manuscript.Proofs.Grammar.Macros
import Manuscript.Proofs.Grammar.Quotes
import Manuscript.Proofs.Markup.Fragment

namespace Manuscript.Peg

open Peg.Expr Glyph Reader

variable {rule : Rule} {options : Options} {n : Nat} {c : Char} {digits : List Char}
  {glyphs t u rest : List Glyph} {ps qs : List Tree} {xs ys : List Element}

section

open Fragment

theorem outOfRange?_token (rule : Rule) (n : Nat) (digits : List Char) (rest : List Glyph) :
    outOfRange? rule n (.token digits :: rest) =
      (outOfRange? .plain n [.token digits]).or (outOfRange? rule (n + size [.token digits]) rest) := by
  have hsize : size [.token digits] = Text.byteCount (chars (.token digits)) :=
    congrArg _ (List.append_nil _)
  rw [outOfRange?, outOfRange?, hsize]
  cases inRange digits <;> rfl

theorem outOfRange?_char (h : rule = .callouts → Construct.calloutNumber.run (.char c :: rest) = none)
    (n : Nat) :
    outOfRange? rule n (.char c :: rest) = outOfRange? rule (n + c.utf8Size) rest := by
  refine outOfRange?.eq_4 _ _ _ _ fun digits after hrule hrun => ?_
  rw [h hrule] at hrun
  cases hrun

theorem outOfRange?_chars (h : ∀ g ∈ t, ∃ c, g = .char c ∧ c ≠ '<') (n : Nat) :
    outOfRange? rule n (t ++ rest) = outOfRange? rule (n + size t) rest := by
  induction t generalizing n with
  | nil => rfl
  | cons g t ih =>
    obtain ⟨⟨c, rfl, hc⟩, ht⟩ := List.forall_mem_cons.mp h
    have hcallout : Construct.calloutNumber.run (.char c :: (t ++ rest)) = none := by
      refine Option.eq_none_iff_forall_ne_some.mpr fun ⟨digits, after⟩ hrun => ?_
      obtain ⟨he, -⟩ := Construct.run_calloutNumber_eq_some_iff.mp hrun
      exact hc (Glyph.char.inj (List.cons.inj he).1)
    rw [List.cons_append, outOfRange?_char fun _ => hcallout, ih ht, Nat.add_assoc]
    rfl

theorem outOfRange?_callout
    (hrun : Construct.calloutNumber.run ((Numeral.callout digits).glyphs ++ rest) = some (digits, rest))
    (n : Nat) :
    outOfRange? .callouts n ((Numeral.callout digits).glyphs ++ rest) =
      if inRange digits then outOfRange? .callouts (n + size (Numeral.callout digits).glyphs) rest
      else some (.calloutRange (String.ofList digits) n) := by
  obtain ⟨-, -, hdigits, -⟩ := Construct.run_calloutNumber_eq_some_iff.mp hrun
  have hplain : ∀ g ∈ digits.map Glyph.char ++ spell ">", ∃ c, g = .char c ∧ c ≠ '<' := by
    refine List.forall_mem_append.mpr ⟨List.forall_mem_map.mpr fun d hd => ⟨d, rfl, ?_⟩,
      List.forall_mem_singleton.mpr ⟨'>', rfl, by decide⟩⟩
    rintro rfl
    exact absurd (hdigits _ hd) (by decide)
  have hglyphs : (Numeral.callout digits).glyphs ++ rest =
      .char '<' :: ((digits.map Glyph.char ++ spell ">") ++ rest) := rfl
  have hsize : size (Numeral.callout digits).glyphs =
      '<'.utf8Size + size (digits.map Glyph.char ++ spell ">") := rfl
  rw [hglyphs] at hrun ⊢
  rw [outOfRange?.eq_3 _ _ _ _ _ hrun, outOfRange?_chars hplain, hsize, Nat.add_assoc]

end

def failing {α : Type} (cause? : Option Cause) (a : α) : Except Failure α :=
  match cause? with
  | some cause => .error (.number cause)
  | none => .ok a

def BuildsBefore (rule : Rule) (options : Options) (n : Nat) (t rest : List Glyph) (ps : List Tree)
    (xs : List Element) : Prop :=
  ∃ cause? ys, buildAll options ps = failing cause? ys ∧ merge ys = merge xs ∧
    Fragment.outOfRange? rule n (t ++ rest) =
      cause?.or (Fragment.outOfRange? rule (n + size t) rest)

namespace BuildsBefore

theorem append (h : BuildsBefore rule options n t (u ++ rest) ps xs)
    (h' : BuildsBefore rule options (n + size t) u rest qs ys) :
    BuildsBefore rule options n (t ++ u) rest (ps ++ qs) (xs ++ ys) := by
  obtain ⟨cause?, xs', hps, hxs, hrange⟩ := h
  obtain ⟨later?, ys', hqs, hys, hlater⟩ := h'
  refine ⟨cause?.or later?, xs' ++ ys', ?_, merge_append_congr hxs hys, ?_⟩
  · rw [buildAll_append, hps, hqs]
    cases cause? <;> cases later? <;> rfl
  · rw [List.append_assoc, hrange, hlater, Option.or_assoc, size_append, Nat.add_assoc]

theorem of_builds (h : Builds options n t ps xs)
    (hrange : Fragment.outOfRange? rule n (t ++ rest) =
      (Fragment.outOfRange? .plain n t).or (Fragment.outOfRange? rule (n + size t) rest)) :
    BuildsBefore rule options n t rest ps xs := by
  obtain ⟨ys, hps, hys⟩ := h
  exact ⟨Fragment.outOfRange? .plain n t, ys, hps, hys, hrange⟩

theorem of_tokenless (h : Builds options n t ps xs) (ht : numerals t = [])
    (hrange : Fragment.outOfRange? rule n (t ++ rest) = Fragment.outOfRange? rule (n + size t) rest) :
    BuildsBefore rule options n t rest ps xs := by
  have hnone : Fragment.outOfRange? .plain n t = none :=
    Fragment.outOfRange?_eq_none (by decide) (by simp [ht]) n
  exact of_builds h (by rw [hrange, hnone, Option.none_or])

theorem callout
    (hrun : Construct.calloutNumber.run ((Numeral.callout digits).glyphs ++ rest) = some (digits, rest)) :
    BuildsBefore .callouts options n (Numeral.callout digits).glyphs rest [calloutPair n digits]
      [.callout (reference digits)] := by
  refine ⟨if inRange digits then none else some (.calloutRange (String.ofList digits) n), _, ?_, rfl, ?_⟩
  · rw [buildAll, build_calloutPair]
    cases inRange digits <;> rfl
  · rw [outOfRange?_callout hrun]
    cases inRange digits <;> rfl

end BuildsBefore

def constructs : Rule → List Expression
  | .passthroughs => passthrough
  | .callouts => [call .callout]
  | .specials => [call .crossReference, call .special]
  | .quotes => quoteChoice
  | .attributes => [call .escapedReference, call .counter, call .attributeReference]
  | .replacements => symbol ++ [call .hyphenRun, call .replacementWord]
  | .macros => inlineMacro
  | .postReplacements => [call .lineBreak]
  | .plain | .attribution => []

def others : Rule → List Expression
  | .replacements => [call .anyChar]
  | _ => [call .word, call .anyChar]

theorem alternatives_eq (hrule : rule ≠ .attribution) :
    alternatives rule = call .placeholder :: (constructs rule ++ others rule) := by
  cases rule with
  | attribution => exact absurd rfl hrule
  | _ => rfl

def ReadsBefore (rule : Rule) (options : Options) (n : Nat) (e : Expression)
    (r : Reader (List Element)) (glyphs : List Glyph) : Prop :=
  ReadsAt n e r (fun t ps xs => t ≠ [] ∧
    ∀ rest, glyphs = t ++ rest → BuildsBefore rule options n t rest ps xs) glyphs

theorem readsBefore_of_builds {e : Expression} {r : Reader (List Element)} (hrule : rule ≠ .callouts)
    (h : Reads n e r fun t ps xs => t ≠ [] ∧ Builds options n t ps xs) (hg : Scanned glyphs) :
    ReadsBefore rule options n e r glyphs := by
  refine (h glyphs hg).mono fun t ps xs ⟨hne, hbuilds⟩ => ⟨hne, fun rest _ => .of_builds hbuilds ?_⟩
  rw [Fragment.outOfRange?_append hrule, Fragment.outOfRange?_eq_plain hrule n t]

theorem single_callout : Construct.single Construct.callout =
    (fun digits => [Element.callout (reference digits)]) <$> Construct.calloutNumber := by
  simp only [Construct.single, Construct.callout, bind_pure_comp, Functor.map_map]

theorem readsBefore_callout (options : Options) (n : Nat) (hg : Scanned glyphs) :
    ReadsBefore .callouts options n (choose [call .callout]) (Construct.single Construct.callout)
      glyphs := by
  obtain ⟨hsome, hnone⟩ := reads_callout (n := n) glyphs hg
  rw [single_callout]
  refine .choice_fail (.map ⟨fun digits rest hrun => ?_, hnone⟩)
  obtain ⟨_, _, rfl, hread, rfl, rfl⟩ := hsome digits rest hrun
  refine ⟨_, _, rfl, hread, List.cons_ne_nil _ _, fun rest' he => ?_⟩
  rw [← List.append_cancel_left he]
  exact .callout hrun

theorem readsBefore_construct (rule : Rule) (options : Options) (n : Nat) (hg : Scanned glyphs) :
    ReadsBefore rule options n (choose (constructs rule)) (Fragment.construct options rule) glyphs := by
  cases rule with
  | passthroughs => exact readsBefore_of_builds (by decide) (reads_single reads_passthrough) hg
  | callouts => exact readsBefore_callout options n hg
  | specials => exact readsBefore_of_builds (by decide) (reads_single reads_special) hg
  | quotes => exact readsBefore_of_builds (by decide) (reads_single reads_quote) hg
  | attributes => exact readsBefore_of_builds (by decide) (reads_single reads_attributeOrCounter) hg
  | replacements => exact readsBefore_of_builds (by decide) reads_replacement hg
  | macros => exact readsBefore_of_builds (by decide) (reads_single reads_inlineMacro) hg
  | postReplacements => exact readsBefore_of_builds (by decide) (reads_single reads_lineBreak.choice_fail) hg
  | plain | attribution => exact .fail

theorem run_construct_of_take? (hg : Scanned glyphs)
    (h : (Fragment.construct options rule).take? glyphs = none) :
    (Fragment.construct options rule).run glyphs = none := by
  refine Option.eq_none_iff_forall_ne_some.mpr fun ⟨xs, rest⟩ hrun => ?_
  obtain ⟨t, ps, rfl, -, hne, -⟩ := (readsBefore_construct rule options 0 hg).1 xs rest hrun
  refine take?_eq_none_iff.mp h xs rest hrun ?_
  rw [List.length_append]
  exact Nat.lt_add_of_pos_left (List.length_pos_iff.mpr hne)

theorem not_alternatives_nil (hrule : rule ≠ .attribution) (options : Options) (n : Nat) :
    Run grammar (choose (alternatives rule)) (cursor n []) none := by
  have hnil : Scanned [] := by simp [Scanned, scan]
  have hconstruct : (Fragment.construct options rule).run [] = none := by
    refine run_construct_of_take? hnil (take?_eq_none_iff.mpr fun _ _ _ => Nat.not_lt_zero _)
  have hothers : Run grammar (choose (others rule)) (cursor n []) none := by
    have hany : Run grammar (choose [call .anyChar]) (cursor n []) none :=
      .second (not_anyChar n) (.charFails fun _ hc => by cases hc)
    have hword : Run grammar (call .word) (cursor n []) none := (reads_word [] hnil).2 rfl
    cases rule with
    | replacements => exact hany
    | _ => exact .second hword hany
  rw [alternatives_eq hrule]
  refine .second (.callFails (.seqFails (.literalFails (by decide)))) (.choose_append ?_)
  exact .second ((readsBefore_construct rule options n hnil).2 hconstruct) hothers

def ReadsAll (rule : Rule) (options : Options) (n : Nat) (glyphs : List Glyph) (xs : List Element) :
    Prop :=
  ∃ ps, Run grammar (star (choose (alternatives rule))) (cursor n glyphs)
      (some (ps, cursor (n + size glyphs) [])) ∧
    BuildsBefore rule options n glyphs [] ps xs

theorem ReadsAll.nil (hrule : rule ≠ .attribution) : ReadsAll rule options n [] [] :=
  ⟨[], .stop (not_alternatives_nil hrule options n), none, [], rfl, rfl, rfl⟩

theorem ReadsAll.step (h : ReadsAll rule options (n + size t) rest ys)
    (hrun : Run grammar (choose (alternatives rule)) (cursor n (t ++ rest))
      (some (ps, cursor (n + size t) rest)))
    (hbuilds : BuildsBefore rule options n t rest ps xs) :
    ReadsAll rule options n (t ++ rest) (xs ++ ys) := by
  obtain ⟨qs, hruns, hrest⟩ := h
  rw [← List.append_nil rest] at hbuilds
  refine ⟨ps ++ qs, ?_, hbuilds.append hrest⟩
  rw [size_append, ← Nat.add_assoc]
  exact .more hrun hruns

theorem ReadsAll.token (hrule : rule ≠ .attribution) (hg : Scanned (.token digits :: rest))
    (h : ReadsAll rule options (n + size [.token digits]) rest ys) :
    ReadsAll rule options n (.token digits :: rest) (.placeholder (reference digits) :: ys) := by
  have hbuilds : BuildsBefore rule options n [.token digits] rest [placeholderPair n digits]
      [.placeholder (reference digits)] :=
    .of_builds (.of_build build_placeholderPair) (outOfRange?_token rule n digits rest)
  refine h.step ?_ hbuilds
  rw [alternatives_eq hrule]
  exact run_token hg

theorem ReadsAll.char (hrule : rule ≠ .attribution) (hg : Scanned (.char c :: rest))
    (hconstruct : (Fragment.construct options rule).run (.char c :: rest) = none)
    (hword : Text.isWordChar c = false) (h : ReadsAll rule options (n + size [.char c]) rest ys) :
    ReadsAll rule options n (.char c :: rest) (.text (String.singleton c) :: ys) := by
  have hany : Run grammar (choose [call .anyChar]) (cursor n (.char c :: rest))
      (some ([.node .anyChar n [c] []], cursor (n + c.utf8Size) rest)) := .first (run_anyChar n c rest)
  have hnone : Run grammar (call .word) (cursor n (.char c :: rest)) none := by
    refine (reads_word _ hg).2 ?_
    rw [word, run_bind, run_ahead, headIs, hword]
    rfl
  have hbuilds : BuildsBefore rule options n [.char c] rest [.node .anyChar n [c] []]
      [.text (String.singleton c)] := by
    -- A callout at this place would have been taken.
    refine .of_tokenless (builds_anyChar n c) rfl (outOfRange?_char (fun hcallouts => ?_) n)
    subst hcallouts
    rw [Fragment.construct, single_callout, run_map] at hconstruct
    exact Option.map_eq_none_iff.mp hconstruct
  refine h.step ?_ hbuilds
  rw [alternatives_eq hrule]
  refine run_otherwise hg ((readsBefore_construct rule options n hg).2 hconstruct) ?_
  cases rule with
  | replacements => exact hany
  | _ => exact .second hnone hany

theorem ReadsAll.construct (hrule : rule ≠ .attribution) (hg : Scanned (.char c :: t))
    (hconstruct : (Fragment.construct options rule).run (.char c :: t) = some (xs, rest))
    (h : ∀ n, ReadsAll rule options n rest ys) :
    ReadsAll rule options n (.char c :: t) (xs ++ ys) := by
  obtain ⟨u, ps, he, hread, -, hbuilds⟩ := (readsBefore_construct rule options n hg).1 xs rest hconstruct
  have hrun : Run grammar (choose (alternatives rule)) (cursor n (.char c :: t))
      (some (ps, cursor (n + size u) rest)) := by
    rw [alternatives_eq hrule]
    exact run_construct hg hread
  rw [he] at hrun ⊢
  exact (h _).step hrun (hbuilds rest he)

theorem ReadsAll.word (hrule : rule ≠ .attribution) (hg : Scanned (.char c :: rest))
    (hconstruct : (Fragment.construct options rule).run (.char c :: rest) = none)
    (hc : Text.isWordChar c)
    (h : ∀ n, ReadsAll rule options n (breakAt (fun glyphs => !continuesWord glyphs) rest).2 ys) :
    ReadsAll rule options n (.char c :: rest)
      (.text (textOf (.char c :: (breakAt (fun glyphs => !continuesWord glyphs) rest).1)) :: ys) := by
  have hothers : others rule = [call .word, call .anyChar] := by
    cases rule with
    | replacements => exact absurd hconstruct (run_replacement_ne_none hc)
    | _ => rfl
  have hword : Peg.word.run (.char c :: rest) =
      some (.char c :: (breakAt (fun glyphs => !continuesWord glyphs) rest).1,
        (breakAt (fun glyphs => !continuesWord glyphs) rest).2) := by
    have hgo : continuesWord (.char c :: rest) = true := by rw [continuesWord, hc, Bool.true_or]
    rw [Peg.word, run_bind, run_ahead, headIs, hc]
    change some (breakAt _ (.char c :: rest)) = _
    rw [breakAt, hgo]
    rfl
  obtain ⟨t, ps, he, hread, ⟨ht, rfl, hnone⟩, -⟩ := (reads_word (n := n) _ hg).1 _ _ hword
  have hbuild : build options (.node .word n (t.flatMap chars) []) = .ok [.text (textOf t)] := by
    rw [build]
    rfl
  -- Callouts begin with a character that is in no word.
  have hplain : ∀ g ∈ t, ∃ d, g = .char d ∧ d ≠ '<' := by
    intro g hg
    obtain ⟨d, rfl, hd⟩ := Fragment.inWord_of_mem_word hc rest g (ht ▸ hg)
    refine ⟨d, rfl, ?_⟩
    rintro rfl
    exact absurd hd (by decide +kernel)
  have hrun : Run grammar (choose (alternatives rule)) (cursor n (.char c :: rest))
      (some ([.node .word n (t.flatMap chars) []],
        cursor (n + size t) (breakAt (fun glyphs => !continuesWord glyphs) rest).2)) := by
    rw [alternatives_eq hrule, hothers]
    exact run_otherwise hg ((readsBefore_construct rule options n hg).2 hconstruct) (.first hread)
  rw [← ht]
  rw [he] at hrun ⊢
  exact (h _).step hrun (.of_tokenless (.plain hnone hbuild) hnone (outOfRange?_chars hplain n))

theorem readsAll_read (hrule : rule ≠ .attribution) (options : Options) (hg : Scanned glyphs) (n : Nat) :
    ReadsAll rule options n glyphs (Fragment.read (Fragment.construct options rule) glyphs) := by
  fun_induction Fragment.read (Fragment.construct options rule) glyphs generalizing n with
  | case1 => exact .nil hrule
  | case2 digits rest ih => exact .token hrule hg (ih hg.tail _)
  | case3 c rest elements left htake ih =>
    exact .construct hrule hg (take?_eq_some_iff.mp htake) (ih (hg.suffix left.suffix))
  | case4 c rest htake hword split ih =>
    have hleft : split.2 <:+ .char c :: rest :=
      ((upTo _).suffix rfl).trans (List.suffix_cons _ _)
    exact .word hrule hg (run_construct_of_take? hg htake) hword (ih (hg.suffix hleft))
  | case5 c rest htake hword ih =>
    exact .char hrule hg (run_construct_of_take? hg htake) (Bool.eq_false_iff.mpr hword) (ih hg.tail _)

theorem Parses.unique {text : String} {outcome other : Except Failure (List Element)}
    (h : Parses rule options text outcome) (h' : Parses rule options text other) : outcome = other := by
  cases h with
  | unmatched hrun =>
    cases h' with
    | unmatched => rfl
    | noPair hrun' | root hrun' => cases hrun.unique hrun'
  | noPair hrun =>
    cases h' with
    | noPair => rfl
    | unmatched hrun' | root hrun' => cases hrun.unique hrun'
  | root hrun =>
    cases h' with
    | root hrun' =>
      cases hrun.unique hrun'
      rfl
    | unmatched hrun' | noPair hrun' => cases hrun.unique hrun'

theorem parses_read (hrule : rule ≠ .attribution) (options : Options) (text : String) :
    Parses rule options text (failing (Fragment.outOfRange? rule 0 (scan text.toList))
      (merge (Fragment.read (Fragment.construct options rule) (scan text.toList)))) := by
  obtain ⟨ps, hrun, cause?, ys, hps, hys, hrange⟩ :=
    readsAll_read hrule options (scanned_scan text.toList) 0
  have hentry : entry rule =
      sequence [start, star (choose (alternatives rule)), call .endOfInput] := by
    cases rule with
    | attribution => exact absurd rfl hrule
    | _ => rfl
  rw [cursor, flatMap_chars_scan] at hrun
  have hend : Run grammar (call .endOfInput) (cursor (0 + size (scan text.toList)) [])
      (some ([.node .endOfInput (0 + size (scan text.toList)) [] []],
        cursor (0 + size (scan text.toList)) [])) :=
    .call .finish rfl
  have hbody : Run grammar (entry rule) ⟨0, text.toList⟩
      (some (ps ++ [.node .endOfInput (0 + size (scan text.toList)) [] []],
        cursor (0 + size (scan text.toList)) [])) := by
    have hseq := Run.seq .start (.seq hrun (.seq hend (.empty _)))
    rw [hentry]
    exact hseq
  have hroot : Parses rule options text
      ((buildAll options (ps ++ [.node .endOfInput (0 + size (scan text.toList)) [] []])).map merge) :=
    .root (.call hbody (List.append_nil _).symm)
  have hcause : cause? = Fragment.outOfRange? rule 0 (scan text.toList) := by
    rw [List.append_nil] at hrange
    rw [hrange]
    exact (Option.or_none ..).symm
  have hbuild : (buildAll options (ps ++ [.node .endOfInput (0 + size (scan text.toList)) [] []])).map
      merge = failing cause? (merge (Fragment.read (Fragment.construct options rule)
        (scan text.toList))) := by
    rw [buildAll_append, hps, ← hys]
    cases cause? with
    | none =>
      change Except.ok (merge (ys ++ [])) = _
      rw [List.append_nil]
      rfl
    | some cause => rfl
  rw [← hcause, ← hbuild]
  exact hroot

theorem atNewline_scan (c : Char) (cs : List Char) :
    atNewline (scan (c :: cs)) = Cause.isNewline c := by
  rw [scan]
  split
  · next hc =>
    have hno : Cause.isNewline c = false := by rw [hc]; decide
    split
    · exact hno.symm
    · rfl
  · rfl

theorem run_exceptNewline (h : Cause.isNewline c = false) (n : Nat) (cs : List Char) :
    Run grammar (except newline) ⟨n, c :: cs⟩ (some ([], ⟨n + c.utf8Size, cs⟩)) := by
  have hnone := (tests_newline n (scan (c :: cs)) (scanned_scan _)).2 (by rw [atNewline_scan, h])
  rw [cursor, flatMap_chars_scan] at hnone
  exact .seq (.no hnone) (.char rfl)

theorem not_exceptNewline {cs : List Char} (h : ∀ c ∈ cs.head?, Cause.isNewline c) (n : Nat) :
    Run grammar (except newline) ⟨n, cs⟩ none := by
  cases cs with
  | nil =>
    have hnone := (tests_newline n [] (by simp [Scanned, scan])).2 rfl
    exact .seqFailsAfter (.no hnone) (.charFails fun _ hc => by cases hc)
  | cons c cs =>
    obtain ⟨found, hrun⟩ := (tests_newline n (scan (c :: cs)) (scanned_scan _)).1
      (by rw [atNewline_scan, h c rfl])
    rw [cursor, flatMap_chars_scan] at hrun
    exact .seqFails (.noFails hrun)

def isInLine (c : Char) : Bool := !Cause.isNewline c

theorem run_line (n : Nat) (cs : List Char) :
    Run grammar (star (except newline)) ⟨n, cs⟩
      (some ([], ⟨n + Text.byteCount (cs.takeWhile isInLine), cs.dropWhile isInLine⟩)) := by
  induction cs generalizing n with
  | nil => exact .stop (not_exceptNewline (fun _ h => by cases h) n)
  | cons c cs ih =>
    cases hc : Cause.isNewline c with
    | true =>
      rw [List.takeWhile_cons_of_neg (by simp [isInLine, hc]),
        List.dropWhile_cons_of_neg (by simp [isInLine, hc])]
      exact .stop (not_exceptNewline (fun d hd => by rw [← Option.some.inj hd, hc]) n)
    | false =>
      rw [List.takeWhile_cons_of_pos (by simp [isInLine, hc]),
        List.dropWhile_cons_of_pos (by simp [isInLine, hc])]
      have hmore := ih (n + c.utf8Size)
      rw [Nat.add_assoc] at hmore
      exact .more (run_exceptNewline hc n cs) hmore

theorem run_attributionText {c : Char} (h : Cause.isNewline c = false) (n : Nat) (cs : List Char) :
    Run grammar (call .attributionText) ⟨n, c :: cs⟩
      (some ([.node .attributionText n (c :: cs.takeWhile isInLine) []],
        ⟨n + c.utf8Size + Text.byteCount (cs.takeWhile isInLine), cs.dropWhile isInLine⟩)) :=
  .call (.seq (run_exceptNewline h n cs) (run_line _ cs))
    (congrArg (c :: ·) List.takeWhile_append_dropWhile.symm)

theorem not_attributionText {cs : List Char} (h : ∀ c ∈ cs.head?, Cause.isNewline c) (n : Nat) :
    Run grammar (call .attributionText) ⟨n, cs⟩ none :=
  .callFails (.seqFails (not_exceptNewline h n))

theorem run_attribution {cs author : List Char} (h : Fragment.author? cs = some author) :
    ∃ m k rest, Run grammar (call (.entry .attribution)) ⟨0, cs⟩
      (some ([.node (.entry .attribution) 0 cs
        [.node .attributionText m author [], .node .endOfInput k [] []]], rest)) := by
  obtain ⟨rfl, hne, hline⟩ := Fragment.author?_eq_some_iff.mp h
  obtain ⟨c, author, rfl⟩ := List.exists_cons_of_ne_nil hne
  obtain ⟨hc, hauthor⟩ := List.forall_mem_cons.mp hline
  have hall : ∀ d ∈ author, isInLine d := fun d hd => by simp [isInLine, hauthor d hd]
  have htext := run_attributionText hc (0 + Text.byteCount "-- ".toList) author
  rw [List.takeWhile_eq_self_iff.mpr hall, List.dropWhile_eq_nil_iff.mpr hall] at htext
  have hend (k : Nat) : Run grammar (call .endOfInput) ⟨k, []⟩
      (some ([.node .endOfInput k [] []], ⟨k, []⟩)) := .call .finish rfl
  have hbody := Run.seq .start (.seq .literal (.seq htext (.seq (hend _) (.empty _))))
  exact ⟨_, _, _, .call hbody (List.append_nil _).symm⟩

theorem parses_attribution {text : String} {author : List Char} (options : Options)
    (h : Fragment.author? text.toList = some author) :
    Parses .attribution options text (.ok [.text (String.ofList author)]) := by
  obtain ⟨-, hne, -⟩ := Fragment.author?_eq_some_iff.mp h
  obtain ⟨m, k, rest, hrun⟩ := run_attribution h
  have htext : build options (.node .attributionText m author []) =
      .ok [.text (String.ofList author)] := by rw [build]; rfl
  have hend : build options (.node .endOfInput k [] []) = .ok [] := by rw [build]; rfl
  have hbuild : (buildAll options [.node .attributionText m author [], .node .endOfInput k [] []]).map
      merge = .ok [.text (String.ofList author)] := by
    have hauthor : String.ofList author ≠ "" := by simpa using hne
    rw [buildAll, htext, buildAll, hend]
    change Except.ok (pushText (String.ofList author) []) = _
    rw [pushText.eq_2 _ _ (by simp), if_neg hauthor]
  exact hbuild ▸ .root hrun

theorem not_attribution {cs : List Char} (h : Fragment.author? cs = none) :
    Run grammar (call (.entry .attribution)) ⟨0, cs⟩ none := by
  refine .callFails (.seqFailsAfter .start ?_)
  by_cases hdashes : "-- ".toList <+: cs
  · obtain ⟨author, rfl⟩ := hdashes
    -- The dashes are read, but then there is nothing, or something is left after the first line.
    refine .seqFailsAfter .literal ?_
    rcases author with _ | ⟨c, author⟩
    · exact .seqFails (not_attributionText (fun _ h => by cases h) _)
    · cases hc : Cause.isNewline c with
      | true =>
        refine .seqFails (not_attributionText (fun d hd => ?_) _)
        rw [← Option.some.inj hd, hc]
      | false =>
        have hleft : author.dropWhile isInLine ≠ [] := by
          intro hnil
          have hall := List.dropWhile_eq_nil_iff.mp hnil
          have hline : ∀ d ∈ author, Cause.isNewline d = false :=
            fun d hd => by simpa [isInLine] using hall d hd
          have hauthor := Fragment.author?_eq_some_iff.mpr
            ⟨rfl, List.cons_ne_nil c author, List.forall_mem_cons.mpr ⟨hc, hline⟩⟩
          rw [h] at hauthor
          cases hauthor
        exact .seqFailsAfter (run_attributionText hc _ author)
          (.seqFails (.callFails (.finishFails hleft)))
  · exact .seqFails (.literalFails hdashes)

inductive Agrees (text : String) : Except Failure (List Element) → Except Fault (List Element) → Prop
  | ok (xs : List Element) : Agrees text (.ok xs) (.ok xs)
  | unmatched : Agrees text (.error .unmatched) (.error (.of (.noAttribution text)))
  | number (cause : Cause) : Agrees text (.error (.number cause)) (.error (.of cause))

theorem exists_parses (rule : Rule) (options : Options) (text : String) :
    ∃ outcome, Parses rule options text outcome ∧
      Agrees text outcome (Fragment.parse rule options text) := by
  by_cases hrule : rule = .attribution
  · subst hrule
    rw [Fragment.parse]
    cases hauthor : Fragment.author? text.toList with
    | none => exact ⟨_, .unmatched (not_attribution hauthor), .unmatched⟩
    | some author => exact ⟨_, parses_attribution options hauthor, .ok _⟩
  · refine ⟨_, parses_read hrule options text, ?_⟩
    rw [Fragment.parse.eq_2 _ _ _ hrule]
    cases hrange : Fragment.outOfRange? rule 0 (scan text.toList) with
    | none => simpa only [hrange] using .ok _
    | some cause => simpa only [hrange] using .number cause

theorem Parses.agrees {text : String} {outcome : Except Failure (List Element)}
    (h : Parses rule options text outcome) :
    Agrees text outcome (Fragment.parse rule options text) := by
  obtain ⟨other, hother, hagrees⟩ := exists_parses rule options text
  rwa [h.unique hother]

theorem parses_ok_iff {text : String} :
    Parses rule options text (.ok xs) ↔ Fragment.parse rule options text = .ok xs := by
  obtain ⟨outcome, hparses, hagrees⟩ := exists_parses rule options text
  constructor
  · intro h
    generalize Fragment.parse rule options text = result at hagrees
    rw [hparses.unique h] at hagrees
    cases hagrees
    rfl
  · intro h
    rw [h] at hagrees
    cases hagrees
    exact hparses

end Manuscript.Peg
