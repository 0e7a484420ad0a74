import Manuscript.Proofs.Grammar.Constructs

namespace Manuscript.Peg

open Peg.Expr Glyph Reader

variable {n : Nat} {options : Options} {p : Char → Bool} {rest : List Glyph}

def joined (p : Char → Bool) : List Glyph → Bool
  | .char c :: rest => Text.isWordChar c || (p c && headIs Text.isWordChar rest)
  | _ => false

theorem continuesWord_eq_joined (glyphs : List Glyph) :
    continuesWord glyphs = joined isIntrawordMark glyphs := by
  rcases glyphs with _ | ⟨c | digits, rest⟩ <;> rfl

theorem continuesContraction_eq_joined (glyphs : List Glyph) :
    Construct.continuesContraction glyphs = joined Construct.isApostrophe glyphs := by
  rcases glyphs with _ | ⟨c | digits, rest⟩ <;> rfl

def splitJoined (p : Char → Bool) (glyphs : List Glyph) : List Glyph × List Glyph :=
  breakAt (fun glyphs => !joined p glyphs) glyphs

theorem splitJoined_of_joined {g : Glyph} (h : joined p (g :: rest)) :
    splitJoined p (g :: rest) = (g :: (splitJoined p rest).1, (splitJoined p rest).2) := by
  rw [splitJoined, breakAt, h]
  rfl

theorem splitJoined_of_not {glyphs : List Glyph} (h : joined p glyphs = false) :
    splitJoined p glyphs = ([], glyphs) := by
  cases glyphs with
  | nil => rfl
  | cons g rest => rw [splitJoined, breakAt, h]; rfl

theorem splitJoined_word {cs : List Char} (h : ∀ c ∈ cs, Text.isWordChar c) (rest : List Glyph) :
    splitJoined p (cs.map .char ++ rest) =
      (cs.map .char ++ (splitJoined p rest).1, (splitJoined p rest).2) := by
  induction cs with
  | nil => rfl
  | cons c cs ih =>
    obtain ⟨hc, hcs⟩ := List.forall_mem_cons.mp h
    have hgo : joined p (.char c :: (cs.map .char ++ rest)) := by rw [joined, hc, Bool.true_or]
    rw [List.map_cons, List.cons_append, splitJoined_of_joined hgo, ih hcs]
    rfl

theorem exists_chars_append (p : Char → Bool) (glyphs : List Glyph) :
    ∃ (cs : List Char) (rest : List Glyph), glyphs = cs.map .char ++ rest ∧ (∀ c ∈ cs, p c) ∧
      headIs p rest = false := by
  induction glyphs with
  | nil => exact ⟨[], [], rfl, List.forall_mem_nil _, rfl⟩
  | cons g glyphs ih =>
    cases hhead : headIs p (g :: glyphs) with
    | false => exact ⟨[], g :: glyphs, rfl, List.forall_mem_nil _, hhead⟩
    | true =>
      obtain ⟨c, rest, hglyphs, hc⟩ := char_of_headIs hhead
      obtain ⟨rfl, rfl⟩ := List.cons.inj hglyphs
      obtain ⟨cs, rest, rfl, hcs, hrest⟩ := ih
      exact ⟨c :: cs, rest, rfl, List.forall_mem_cons.mpr ⟨hc, hcs⟩, hrest⟩

theorem joined_cases (h : headIs Text.isWordChar rest = false) :
    joined p rest = false ∨ ∃ c next, rest = .char c :: next ∧ p c ∧ headIs Text.isWordChar next := by
  rcases rest with _ | ⟨c | digits, next⟩
  · exact .inl rfl
  · have hjoined : joined p (.char c :: next) = (p c && headIs Text.isWordChar next) := by
      rw [joined, show Text.isWordChar c = false from h, Bool.false_or]
    rw [hjoined, Bool.and_eq_false_iff]
    cases hp : p c with
    | false => exact .inl (.inl rfl)
    | true =>
      cases hnext : headIs Text.isWordChar next with
      | false => exact .inl (.inr rfl)
      | true => exact .inr ⟨c, next, rfl, hp, hnext⟩
  · exact .inl rfl

section

variable {word link : Expression} {P : Nat → List Glyph → List Tree → Prop}

theorem run_joined
    (append : ∀ n t u ps qs, P n t ps → P (n + size t) u qs → P n (t ++ u) (ps ++ qs))
    (reads : ∀ n, Reads n word (someOf Text.isWordChar) fun t ps a => t = a ∧ P n t ps)
    (stops : ∀ n rest, Scanned rest → headIs Text.isWordChar rest = false → joined p rest = false →
      Run grammar (seq link word) (cursor n rest) none)
    (links : ∀ n c next, Scanned (.char c :: next) → p c → headIs Text.isWordChar next → ∃ ps,
      Run grammar link (cursor n (.char c :: next)) (some (ps, cursor (n + c.utf8Size) next)) ∧
        P n [.char c] ps)
    {glyphs : List Glyph} (hg : Scanned glyphs) (hword : headIs Text.isWordChar glyphs) (n : Nat) :
    ∃ ps, Run grammar (seq word (star (seq link word))) (cursor n glyphs)
        (some (ps, cursor (n + size (splitJoined p glyphs).1) (splitJoined p glyphs).2)) ∧
      P n (splitJoined p glyphs).1 ps := by
  induction hlength : glyphs.length using Nat.strongRecOn generalizing glyphs n with
  | ind k ih =>
    obtain ⟨cs, rest, rfl, hcs, hrest⟩ := exists_chars_append Text.isWordChar glyphs
    have hne : cs ≠ [] := by
      rintro rfl
      rw [List.map_nil, List.nil_append, hrest] at hword
      cases hword
    have hafter : Scanned rest := hg.suffix (List.suffix_append _ _)
    obtain ⟨t, ps, he, hrun, rfl, hp⟩ := (reads n _ hg).1 _ _ (run_someOf_append hne hcs hrest)
    rw [splitJoined_word hcs]
    -- The reader decides by what follows the mark, the expression by whether a word can be read there.
    rcases joined_cases hrest with hstop | ⟨c, next, rfl, hc, hnext⟩
    · rw [splitJoined_of_not hstop, List.append_nil]
      have hall := Run.seq hrun (.stop (stops _ rest hafter hrest hstop))
      rw [List.append_nil] at hall
      exact ⟨ps, hall, hp⟩
    · obtain ⟨qs, hlink, hq⟩ := links (n + size (cs.map .char)) c next hafter hc hnext
      have hshorter : next.length < k := by
        rw [← hlength, List.length_append]
        exact Nat.lt_add_left _ (Nat.lt_succ_self _)
      have hjoined : joined p (.char c :: next) := by rw [joined, hc, hnext, Bool.and_true, Bool.or_true]
      obtain ⟨rs, hnextRun, hr⟩ := ih _ hshorter hafter.tail hnext _ rfl
      cases hnextRun with
      | seq hfirst hstar =>
        have hall := Run.seq hrun (.more (.seq hlink hfirst) hstar)
        have hP := append _ _ _ _ _ hp (append _ _ _ _ _ hq hr)
        have hsize : size (.char c :: (splitJoined p next).1) =
            c.utf8Size + size (splitJoined p next).1 := rfl
        rw [Nat.add_assoc, Nat.add_assoc, ← hsize, ← size_append, List.append_assoc] at hall
        rw [splitJoined_of_joined hjoined]
        exact ⟨_, hall, hP⟩

end

theorem eq_apostrophe {c : Char} (h : Construct.isApostrophe c) : c = '\x27' :=
  Char.toNat_inj.mp (beq_iff_eq.mp h)

theorem splitJoined_ne_nil {glyphs : List Glyph} (h : headIs Text.isWordChar glyphs) :
    (splitJoined p glyphs).1 ≠ [] := by
  obtain ⟨c, rest, rfl, hc⟩ := char_of_headIs h
  have hjoined : joined p (.char c :: rest) := by rw [joined, hc, Bool.true_or]
  rw [splitJoined_of_joined hjoined]
  exact List.cons_ne_nil _ _

theorem reads_plainWord :
    Reads n (call .plainWord) (someOf Text.isWordChar) fun t ps a =>
      (TextPair .plainWord n t ps a ∧ t ≠ []) ∧ ∀ g ∈ a, ∃ c, g = .char c ∧ Text.isWordChar c :=
  (reads_chars rfl isWordChar_reservedChar).yielding (Yields.someOf.mono fun _ _ h => h.2.2)

theorem contractionElement_of_word {c : Char} (h : Text.isWordChar c) :
    Construct.contractionElement (.char c) = element (.char c) := by
  have hno : Construct.isApostrophe c = false := by
    refine Bool.eq_false_iff.mpr fun hc => ?_
    rw [eq_apostrophe hc] at h
    exact absurd h (by decide +kernel)
  rw [Construct.contractionElement, hno]
  rfl

theorem builds_plainWord {t : List Glyph} (ht : numerals t = [])
    (hword : ∀ g ∈ t, ∃ c, g = .char c ∧ Text.isWordChar c) :
    Builds options n t [.node .plainWord n (t.flatMap chars) []]
      (t.map Construct.contractionElement) := by
  have helements : t.map Construct.contractionElement = t.map element := by
    refine List.map_congr_left fun g hg => ?_
    obtain ⟨c, rfl, hc⟩ := hword g hg
    exact contractionElement_of_word hc
  rw [helements]
  exact (Builds.plain ht rfl).congr (merge_map_element ht).symm

theorem reads_apostrophe (options : Options) (n : Nat) :
    Reads n (call .apostrophe) (do Reader.literal "'"; Reader.ahead (headIs Text.isWordChar))
      fun t ps _ => t = spell "'" ∧ Builds options n t ps [.symbol "'"] := by
  refine .atomic rfl (skip (by decide) ((Reads.ahead (.char isWordChar_reservedChar)).mono ?_))
  rintro _ _ _ ⟨rfl, rfl⟩
  exact ⟨rfl, .plain rfl rfl⟩

theorem isIntrawordMark_eq (c : Char) : isIntrawordMark c =
    [(· == '*'), (· == '_'), (· == '#'), (· == '\x60'), (· == '^'), (· == '~')].any (· c) := by
  have hbacktick : (c.toNat == 0x60) = (c == '\x60') := by
    change (c.toNat == '\x60'.toNat) = _
    exact Bool.eq_iff_iff.mpr (beq_iff_eq.trans (Char.toNat_inj.trans beq_iff_eq.symm))
  simp [isIntrawordMark, hbacktick, Bool.or_assoc]

theorem steps_intrawordMark : Steps intrawordMark fun glyphs => !headIs isIntrawordMark glyphs := by
  rw [funext isIntrawordMark_eq]
  exact .choose (.cons (.ofLiteral '*' rfl (by decide)) (.cons (.ofLiteral '_' rfl (by decide))
    (.cons (.ofLiteral '#' rfl (by decide)) (.cons (.ofLiteral '\x60' rfl (by decide))
      (.cons (.ofLiteral '^' rfl (by decide)) (.cons (.ofLiteral '~' rfl (by decide)) .nil))))))

theorem run_intrawordMark {c : Char} (hrest : Scanned (.char c :: rest)) (hc : isIntrawordMark c) :
    Run grammar intrawordMark (cursor n (.char c :: rest))
      (some ([], cursor (n + c.utf8Size) rest)) := by
  obtain ⟨d, hd, hrun⟩ := steps_intrawordMark.char n _ rest hrest (by simp [headIs, hc])
  obtain rfl := Glyph.char.inj hd
  exact hrun

def word : Reader (List Glyph) := do
  Reader.ahead (headIs Text.isWordChar)
  upTo fun glyphs => !continuesWord glyphs

theorem reads_word : Reads n (call .word) word fun t ps a => TextPair .word n t ps a ∧ t ≠ [] := by
  have hwords (n : Nat) : Reads n (plus wordChar) (someOf Text.isWordChar) fun t ps a =>
      t = a ∧ numerals t = [] :=
    ((Steps.ofChar isWordChar_reservedChar).plus n).mono fun _ _ _ h => ⟨h.1, h.2.2.1⟩
  have hmarked (n : Nat) (rest : List Glyph) (hrest : Scanned rest)
      (hhead : headIs Text.isWordChar rest = false) (hstop : joined isIntrawordMark rest = false) :
      Run grammar (seq intrawordMark (plus wordChar)) (cursor n rest) none := by
    rcases rest with _ | ⟨g, next⟩
    · exact .seqFails (steps_intrawordMark.atEnd n)
    · cases hmark : headIs isIntrawordMark (g :: next) with
      | false => exact .seqFails (steps_intrawordMark.atStop n g next hrest (by rw [hmark]; rfl))
      | true =>
        obtain ⟨c, rfl, hrun⟩ := steps_intrawordMark.char n g next hrest (by rw [hmark]; rfl)
        have hnext : headIs Text.isWordChar next = false := by
          have hc : isIntrawordMark c = true := hmark
          rw [joined, hc, Bool.true_and, Bool.or_eq_false_iff] at hstop
          exact hstop.2
        exact .seqFailsAfter hrun ((hwords _ _ hrest.tail).2 (run_someOf_of_not hnext))
  refine .atomic rfl fun glyphs hg => ?_
  rw [ReadsAt, word, run_bind, run_ahead]
  cases hword : headIs Text.isWordChar glyphs with
  | false =>
    refine ⟨fun _ _ hr => (by cases hr), fun _ => .seqFails ?_⟩
    exact (hwords n _ hg).2 (run_someOf_of_not hword)
  | true =>
    have hne := splitJoined_ne_nil (p := isIntrawordMark) hword
    have hsome : (upTo fun glyphs => !continuesWord glyphs).run glyphs =
        some (splitJoined isIntrawordMark glyphs) := by
      rw [funext continuesWord_eq_joined]
      rfl
    obtain ⟨ps, hrun, ht⟩ := run_joined (P := fun _ t _ => numerals t = [])
      (fun n t u ps qs ht hu => by rw [numerals_append, ht, hu]; rfl) hwords hmarked
      (fun n c next hrest hc _ => ⟨[], run_intrawordMark hrest hc, rfl⟩) hg hword n
    rw [if_pos rfl, Option.bind_some, hsome]
    refine ⟨fun xs rest hr => ?_, fun hr => by cases hr⟩
    obtain ⟨rfl, rfl⟩ := Prod.mk.inj (Option.some.inj hr)
    exact ⟨_, ps, (breakAt_append ..).symm, hrun, ⟨rfl, rfl, ht⟩, hne⟩

theorem not_apostrophe_of_not_joined (hrest : headIs Text.isWordChar rest = false)
    (h : joined Construct.isApostrophe rest = false) :
    (do Reader.literal "'"; Reader.ahead (headIs Text.isWordChar) : Reader Unit).run rest = none := by
  rw [run_bind]
  cases hstart : startsWith "'".toList rest with
  | false => rw [run_literal_of_not hstart, Option.bind_none]
  | true =>
    obtain ⟨next, rfl⟩ : ∃ next, rest = spell "'" ++ next := ⟨_, spell_of_startsWith hstart⟩
    have hnext : headIs Text.isWordChar next = false := by
      have hfirst : Text.isWordChar '\x27' = false := hrest
      change (Text.isWordChar '\x27' || (Construct.isApostrophe '\x27' && _)) = false at h
      rw [hfirst] at h
      exact h
    rw [run_literal_append, Option.bind_some, run_ahead, hnext]
    rfl

theorem run_apostrophe {c : Char} (hrest : Scanned (.char c :: rest))
    (hc : Construct.isApostrophe c) (hword : headIs Text.isWordChar rest) :
    ∃ ps, Run grammar (call .apostrophe) (cursor n (.char c :: rest))
        (some (ps, cursor (n + c.utf8Size) rest)) ∧
      Builds options n [.char c] ps ([.char c].map Construct.contractionElement) := by
  have hread : (do Reader.literal "'"; Reader.ahead (headIs Text.isWordChar) : Reader Unit).run
      (spell "'" ++ rest) = some ((), rest) := by
    rw [run_bind, run_literal_append, Option.bind_some, run_ahead, if_pos hword]
  obtain rfl := eq_apostrophe hc
  obtain ⟨t, ps, _, hrun, rfl, hbuilds⟩ := (reads_apostrophe options _ _ hrest).1 _ _ hread
  exact ⟨ps, hrun, hbuilds⟩

theorem run_contraction {glyphs : List Glyph} (hword : headIs Text.isWordChar glyphs) :
    Construct.contraction.run glyphs =
      some ((splitJoined Construct.isApostrophe glyphs).1.map Construct.contractionElement,
        (splitJoined Construct.isApostrophe glyphs).2) := by
  have hne := splitJoined_ne_nil (p := Construct.isApostrophe) hword
  have hsome : (someUpTo fun glyphs => !Construct.continuesContraction glyphs).run glyphs =
      some (splitJoined Construct.isApostrophe glyphs) := by
    rw [funext continuesContraction_eq_joined, run_someUpTo]
    exact if_neg (by simpa [splitJoined] using hne)
  rw [Construct.contraction, run_bind, run_ahead, if_pos hword, Option.bind_some, run_bind, hsome,
    Option.bind_some, run_pure]

theorem run_replacement_ne_none {glyphs : List Glyph} (hword : headIs Text.isWordChar glyphs) :
    Construct.replacement.run glyphs ≠ none := by
  rw [Construct.replacement, run_orElse, run_contraction hword, ne_eq, Option.or_eq_none_iff]
  exact fun h => nomatch h.2

theorem reads_replacementWord :
    Reads n (call .replacementWord) Construct.contraction
      fun t ps xs => t ≠ [] ∧ Builds options n t ps xs := by
  refine .compound rfl fun glyphs hg => ?_
  cases hword : headIs Text.isWordChar glyphs with
  | false =>
    rw [ReadsAt, Construct.contraction, run_bind, run_ahead, hword]
    refine ⟨fun _ _ hr => (by cases hr), fun _ => .seqFails ?_⟩
    exact (reads_plainWord _ hg).2 (run_someOf_of_not hword)
  | true =>
    have hreads (n : Nat) : Reads n (call .plainWord) (someOf Text.isWordChar) fun t ps a =>
        t = a ∧ Builds options n t ps (t.map Construct.contractionElement) := by
      refine reads_plainWord.mono ?_
      rintro t _ _ ⟨⟨⟨rfl, rfl, ht⟩, -⟩, hchars⟩
      exact ⟨rfl, builds_plainWord ht hchars⟩
    obtain ⟨ps, hrun, hbuilds⟩ := run_joined
      (P := fun n t ps => Builds options n t ps (t.map Construct.contractionElement))
      (fun n t u ps qs ht hu => by rw [List.map_append]; exact ht.append hu) hreads
      (fun n rest hrest hhead hstop => .seqFails ((reads_apostrophe options _ _ hrest).2
        (not_apostrophe_of_not_joined hhead hstop)))
      (fun n c next hrest hc hnext => run_apostrophe hrest hc hnext) hg hword n
    rw [ReadsAt, run_contraction hword]
    refine ⟨fun xs rest hr => ?_, fun hr => by cases hr⟩
    obtain ⟨rfl, rfl⟩ := Prod.mk.inj (Option.some.inj hr)
    exact ⟨_, ps, (breakAt_append ..).symm, hrun, splitJoined_ne_nil hword,
      .of_inner (by rw [build]) hbuilds⟩

theorem reads_replacement :
    Reads n (choose (symbol ++ [call .hyphenRun, call .replacementWord])) Construct.replacement
      fun t ps xs => t ≠ [] ∧ Builds options n t ps xs := by
  have hsigns : ReadsElement options n (choose (Sign.all.map (call ∘ .sign))) Construct.symbol :=
    .firstOf (.cons (reads_sign .copyright) (.cons (reads_sign .trademark)
      (.cons (reads_sign .registered) (.cons (reads_sign .ellipsis) .nil))))
  have hmarks : ReadsElement options n
      (choose (Sign.all.map (call ∘ .sign) ++ [call .emDash, call .hyphenRun]))
      (firstOf [Construct.symbol, Construct.emDash, Construct.hyphenRun]) :=
    hsigns.choose_append (.firstOf (.cons reads_emDash (.cons reads_hyphenRun .nil)))
  exact (reads_single hmarks).choose_append reads_replacementWord.choice_fail

end Manuscript.Peg
