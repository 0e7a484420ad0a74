import Manuscript.Proofs.Grammar.Words
import Manuscript.Proofs.Rereading.Leftovers

namespace Manuscript

open Glyph Reader

def symbolNames : List String := ["(C)", "(TM)", "(R)", "..."]

def joinsOn : List (Option Char) → Bool
  | some a :: some c :: _ => Construct.isApostrophe a && Text.isWordChar c
  | _ => false

inductive Symbolless : List (Option Char) → Prop
  | nil : Symbolless []
  | gap {o : List (Option Char)} : Symbolless o → Symbolless (none :: o)
  | other {c : Char} {o : List (Option Char)} : Text.isWordChar c = false → c ≠ '-' →
      (∀ name ∈ symbolNames, ¬ name.toList.map some <+: some c :: o) → Symbolless o →
      Symbolless (some c :: o)
  | hyphens {n : Nat} {o : List (Option Char)} : 0 < n → n ≠ 2 → ¬ [some '-'] <+: o →
      Symbolless o → Symbolless (List.replicate n (some '-') ++ o)
  | word {c : Char} {o : List (Option Char)} : Text.isWordChar c → joinsOn o = false →
      Symbolless o → Symbolless (some c :: o)

namespace Symbolless

theorem joinsOn_of_cut {a b : List (Option Char)} (h : joinsOn (a ++ none :: b) = false) :
    joinsOn a = false := by
  rcases a with _ | ⟨_ | x, _ | ⟨_ | y, rest⟩⟩ <;> first | rfl | exact h

theorem of_cut {o : List (Option Char)} (h : Symbolless o) (a b : List (Option Char))
    (he : o = a ++ none :: b) : Symbolless a ∧ Symbolless b := by
  induction h generalizing a with
  | nil => simp at he
  | gap h ih =>
    cases a with
    | nil => exact ⟨.nil, (List.cons.inj he).2 ▸ h⟩
    | cons x a =>
      obtain ⟨rfl, rfl⟩ := List.cons.inj he
      obtain ⟨ha, hb⟩ := ih a rfl
      exact ⟨.gap ha, hb⟩
  | other hword hhyphen hnames _ ih =>
    cases a with
    | nil => cases he
    | cons x a =>
      obtain ⟨rfl, rfl⟩ := List.cons.inj he
      obtain ⟨ha, hb⟩ := ih a rfl
      refine ⟨.other hword hhyphen (fun name hname hpre => hnames name hname ?_) ha, hb⟩
      exact hpre.trans (List.prefix_append _ _)
  | @hyphens n o hpos hn hstop _ ih =>
    obtain ⟨a', rfl, ho⟩ : ∃ a', a = List.replicate n (some '-') ++ a' ∧ o = a' ++ none :: b := by
      rcases List.append_eq_append_iff.mp he with ⟨a', ha, ho⟩ | ⟨c, hc, ho⟩
      · exact ⟨a', ha, ho⟩
      · cases c with
        | nil => exact ⟨[], by simpa using hc.symm, ho.symm⟩
        | cons x c =>
          obtain ⟨rfl, -⟩ := List.cons.inj ho
          have hmem : none ∈ List.replicate n (some '-') := hc ▸ by simp
          cases (List.mem_replicate.mp hmem).2
    obtain ⟨ha, hb⟩ := ih a' ho
    exact ⟨.hyphens hpos hn (fun hpre => hstop (ho ▸ hpre.trans (List.prefix_append _ _))) ha, hb⟩
  | word hword hjoins _ ih =>
    cases a with
    | nil => cases he
    | cons x a =>
      obtain ⟨rfl, rfl⟩ := List.cons.inj he
      obtain ⟨ha, hb⟩ := ih a rfl
      exact ⟨.word hword (joinsOn_of_cut hjoins) ha, hb⟩

end Symbolless

namespace Reader

variable {α : Type}

theorem run_firstOf_eq_none_iff {readers : List (Reader α)} {glyphs : List Glyph} :
    (firstOf readers).run glyphs = none ↔ ∀ r ∈ readers, r.run glyphs = none := by
  induction readers with
  | nil => exact iff_of_true rfl (List.forall_mem_nil _)
  | cons r readers ih =>
    rw [run_firstOf_cons, Option.or_eq_none_iff, ih, List.forall_mem_cons]

end Reader

theorem startsWith_iff_chars {cs : List Char} {t : List Glyph} :
    startsWith cs t ↔ cs.map some <+: t.map char? := by
  induction cs generalizing t with
  | nil => exact iff_of_true rfl List.nil_prefix
  | cons c cs ih =>
    rcases t with _ | ⟨d | digits, t⟩
    · simp [startsWith]
    · rw [startsWith, Bool.and_eq_true, beq_iff_eq, ih, List.map_cons, List.map_cons,
        List.cons_prefix_cons]
      simp [char?]
    · simp [startsWith, char?, List.cons_prefix_cons]

namespace Construct

variable {t : List Glyph} {c : Char}

theorem run_symbol_eq_none_iff : symbol.run t = none ↔
    ∀ name ∈ symbolNames, ¬ name.toList.map some <+: t.map char? := by
  have hname (name : String) : (do literal name; return Element.symbol name : Reader Element).run t =
      none ↔ ¬ name.toList.map some <+: t.map char? := by
    rw [← startsWith_iff_chars, Bool.not_eq_true, run_bind]
    constructor
    · intro h
      refine Bool.eq_false_iff.mpr fun hstart => ?_
      obtain ⟨rest, rfl⟩ : ∃ rest, t = spell name ++ rest := ⟨_, spell_of_startsWith hstart⟩
      rw [run_literal_append] at h
      cases h
    · intro h
      rw [run_literal_of_not h]
      rfl
  refine run_firstOf_eq_none_iff.trans ?_
  rw [symbolNames, List.forall_mem_map]
  exact forall₂_congr fun name _ => hname name

def sign : Reader Element := firstOf [symbol, emDash, hyphenRun]

theorem run_sign_eq_none (hhyphens : ¬ ['-', '-'].map some <+: t.map char?)
    (hnames : ∀ name ∈ symbolNames, ¬ name.toList.map some <+: t.map char?) : sign.run t = none := by
  have hdash : startsWith "--".toList t = false :=
    Bool.eq_false_iff.mpr fun h => hhyphens (startsWith_iff_chars.mp h)
  have hrun : startsWith "---".toList t = false := by
    refine Bool.eq_false_iff.mpr fun h => hhyphens ?_
    exact (List.prefix_append _ [some '-']).trans (startsWith_iff_chars.mp h)
  refine run_firstOf_eq_none_iff.mpr fun r hr => ?_
  simp only [List.mem_cons, List.not_mem_nil, or_false] at hr
  rcases hr with rfl | rfl | rfl
  · exact run_symbol_eq_none_iff.mpr hnames
  · rw [emDash, run_bind, run_literal_of_not hdash]
    rfl
  · rw [hyphenRun, run_bind, run_ahead, hrun]
    rfl

theorem run_contraction_eq_none (h : headIs Text.isWordChar t = false) : contraction.run t = none := by
  rw [contraction, run_bind, run_ahead, h]
  rfl

theorem run_replacement (t : List Glyph) : replacement.run t =
    ((sign.run t).map fun found => ([found.1], found.2)).or (contraction.run t) := by
  change ((sign.run t).bind _).or _ = _
  cases sign.run t <;> rfl

theorem run_hyphenRun {n : Nat} (hn : 3 ≤ n) (h : headIs (· == '-') t = false) :
    hyphenRun.run ((List.replicate n '-').map .char ++ t) =
      some (.text (textOf ((List.replicate n '-').map .char)), t) := by
  have hstart : startsWith "---".toList ((List.replicate n '-').map .char ++ t) = true := by
    obtain ⟨k, rfl⟩ := Nat.exists_eq_add_of_le hn
    rw [List.replicate_add]
    rfl
  have hne : List.replicate n '-' ≠ [] := by
    rw [ne_eq, List.replicate_eq_nil_iff]
    omega
  have hall : ∀ c ∈ List.replicate n '-', (c == '-') = true := fun c hc =>
    beq_iff_eq.mpr (List.mem_replicate.mp hc).2
  rw [hyphenRun, run_bind, run_ahead, if_pos hstart, Option.bind_some, run_bind,
    run_someOf_append hne hall h, Option.bind_some, run_pure]

end Construct

namespace Fragment

open Construct Peg Pending

variable {t : List Glyph} {c : Char}

theorem read_replacement_char (hword : Text.isWordChar c = false)
    (hhyphens : ¬ ['-', '-'].map some <+: some c :: t.map char?)
    (hnames : ∀ name ∈ symbolNames, ¬ name.toList.map some <+: some c :: t.map char?) :
    read replacement (.char c :: t) = .text (String.singleton c) :: read replacement t := by
  have hsign : sign.run (.char c :: t) = none := run_sign_eq_none hhyphens hnames
  refine read_char ?_ hword
  rw [run_replacement, hsign]
  exact run_contraction_eq_none hword

theorem read_replacement_hyphens {n : Nat} (hn : 3 ≤ n) (h : headIs (· == '-') t = false) :
    read replacement ((List.replicate n '-').map .char ++ t) =
      .text (textOf ((List.replicate n '-').map .char)) :: read replacement t := by
  obtain ⟨k, rfl⟩ := Nat.exists_eq_add_of_le hn
  have hsign : sign.run ((List.replicate (3 + k) '-').map .char ++ t) =
      some (.text (textOf ((List.replicate (3 + k) '-').map .char)), t) := by
    have hsymbol : symbol.run ((List.replicate (3 + k) '-').map .char ++ t) = none := by
      rw [List.replicate_add]
      rfl
    have hdash : emDash.run ((List.replicate (3 + k) '-').map .char ++ t) = none := by
      rw [List.replicate_add]
      rfl
    rw [sign, run_firstOf_cons, hsymbol, Option.none_or, run_firstOf_cons, hdash, Option.none_or,
      run_firstOf_cons, run_hyphenRun hn h]
    rfl
  have hrun : replacement.run ((List.replicate (3 + k) '-').map .char ++ t) =
      some ([.text (textOf ((List.replicate (3 + k) '-').map .char))], t) := by
    rw [run_replacement, hsign]
    rfl
  have hcons : (List.replicate (3 + k) '-').map Glyph.char ++ t =
      .char '-' :: ((List.replicate (2 + k) '-').map .char ++ t) := by
    rw [show 3 + k = (2 + k) + 1 by omega, List.replicate_succ]
    rfl
  rw [hcons] at hrun ⊢
  have hshorter : t.length < (Glyph.char '-' :: ((List.replicate (2 + k) '-').map .char ++ t)).length := by
    rw [List.length_cons, List.length_append]
    omega
  rw [read_of_run hrun hshorter]
  rfl

theorem headIs_hyphen (h : ¬ [some '-'] <+: t.map char?) : headIs (· == '-') t = false := by
  refine Bool.eq_false_iff.mpr fun hhead => h ?_
  obtain ⟨c, rest, rfl, hc⟩ := char_of_headIs hhead
  rw [beq_iff_eq.mp hc]
  exact List.prefix_append [some '-'] _

theorem joined_eq (t : List Glyph) :
    joined isApostrophe t = (headIs Text.isWordChar t || joinsOn (t.map char?)) := by
  rcases t with _ | ⟨c | digits, _ | ⟨d | digits', rest⟩⟩ <;> simp [joined, headIs, joinsOn, char?]

theorem run_replacement_word {t : List Glyph} (hword : headIs Text.isWordChar t) :
    replacement.run t = some ((splitJoined isApostrophe t).1.map contractionElement,
      (splitJoined isApostrophe t).2) := by
  obtain ⟨c, rest, rfl, hc⟩ := char_of_headIs hword
  have hne (d : Char) (hd : Text.isWordChar d = false) : c ≠ d := by
    rintro rfl
    rw [hd] at hc
    cases hc
  have hsign : sign.run (.char c :: rest) = none := by
    refine run_sign_eq_none (fun hpre => ?_) fun name hname hpre => ?_
    · exact hne '-' (by decide +kernel) (Option.some.inj (List.cons_prefix_cons.mp hpre).1).symm
    · simp only [symbolNames, List.mem_cons, List.not_mem_nil, or_false] at hname
      rcases hname with rfl | rfl | rfl | rfl
      all_goals
        refine hne _ ?_ (Option.some.inj (List.cons_prefix_cons.mp hpre).1).symm
        decide +kernel
  rw [Construct.run_replacement, hsign, run_contraction hword]
  rfl

theorem length_splitJoined_le (t : List Glyph) :
    (splitJoined isApostrophe t).2.length ≤ t.length :=
  List.IsSuffix.length_le ⟨_, breakAt_append ..⟩

theorem read_replacement_word (hc : Text.isWordChar c) (h : joinsOn (t.map char?) = false) :
    read replacement (.char c :: t) = .text (String.singleton c) :: read replacement t := by
  have hjoined : joined isApostrophe (.char c :: t) := by rw [joined, hc, Bool.true_or]
  have hrun : replacement.run (.char c :: t) =
      some (.text (String.singleton c) :: (splitJoined isApostrophe t).1.map contractionElement,
        (splitJoined isApostrophe t).2) := by
    rw [run_replacement_word (t := .char c :: t) hc, splitJoined_of_joined hjoined, List.map_cons,
      contractionElement_of_word hc]
    rfl
  rw [read_of_run hrun (Nat.lt_succ_of_le (length_splitJoined_le t)), List.cons_append]
  congr 1
  cases hhead : headIs Text.isWordChar t with
  | true =>
    obtain ⟨d, rest, rfl, hd⟩ := char_of_headIs hhead
    have hnext := run_replacement_word hhead
    refine (read_of_run hnext ?_).symm
    have hgo : joined isApostrophe (.char d :: rest) := by rw [joined, hd, Bool.true_or]
    rw [splitJoined_of_joined hgo]
    exact Nat.lt_succ_of_le (length_splitJoined_le rest)
  | false =>
    rw [splitJoined_of_not (by rw [joined_eq, hhead, h]; rfl)]
    rfl

theorem exists_of_map_char?_eq_append (cs : List Char) {o : List (Option Char)}
    (h : t.map char? = cs.map some ++ o) : ∃ u, t = cs.map .char ++ u ∧ u.map char? = o := by
  induction cs generalizing t with
  | nil => exact ⟨t, rfl, h⟩
  | cons c cs ih =>
    obtain ⟨g, t, rfl, hg, ht⟩ := List.map_eq_cons_iff.mp h
    cases g with
    | token digits => cases hg
    | char d =>
      obtain rfl := Option.some.inj hg
      obtain ⟨u, rfl, hu⟩ := ih ht
      exact ⟨u, rfl, hu⟩

theorem read_replacement_hyphen (h : ¬ [some '-'] <+: t.map char?) :
    read replacement (.char '-' :: t) = .text "-" :: read replacement t := by
  refine read_replacement_char (by decide +kernel) (fun hpre => ?_) fun name hname hpre => ?_
  · exact h (List.cons_prefix_cons.mp hpre).2
  · simp only [symbolNames, List.mem_cons, List.not_mem_nil, or_false] at hname
    rcases hname with rfl | rfl | rfl | rfl <;> cases (List.cons_prefix_cons.mp hpre).1

theorem merge_read_of_symbolless {o : List (Option Char)} (h : Symbolless o) (t : List Glyph)
    (ht : t.map char? = o) : merge (read replacement t) = content t := by
  induction h generalizing t with
  | nil =>
    obtain rfl := List.map_eq_nil_iff.mp ht
    rw [read]
    rfl
  | gap _ ih =>
    obtain ⟨g, t, rfl, hg, rfl⟩ := List.map_eq_cons_iff.mp ht
    cases g with
    | char c => cases hg
    | token digits =>
      rw [read, merge_cons rfl, ih t rfl]
      rfl
  | other hword hhyphen hnames hrest ih =>
    obtain ⟨g, t, rfl, hg, rfl⟩ := List.map_eq_cons_iff.mp ht
    cases g with
    | token digits => cases hg
    | char c =>
      obtain rfl := Option.some.inj hg
      rw [read_replacement_char hword (fun hpre => ?_) hnames, merge, ih t rfl]
      · rfl
      · exact hhyphen (Option.some.inj (List.cons_prefix_cons.mp hpre).1).symm
  | word hword hjoins _ ih =>
    obtain ⟨g, t, rfl, hg, rfl⟩ := List.map_eq_cons_iff.mp ht
    cases g with
    | token digits => cases hg
    | char c =>
      obtain rfl := Option.some.inj hg
      rw [read_replacement_word hword hjoins, merge, ih t rfl]
      rfl
  | @hyphens n o hpos hn hstop hrest ih =>
    rw [← List.map_replicate] at ht
    obtain ⟨u, rfl, rfl⟩ := exists_of_map_char?_eq_append _ ht
    have hread : read replacement ((List.replicate n '-').map .char ++ u) =
        .text (textOf ((List.replicate n '-').map .char)) :: read replacement u := by
      rcases Nat.lt_or_ge n 3 with hlt | hge
      · obtain rfl : n = 1 := by omega
        exact read_replacement_hyphen hstop
      · exact read_replacement_hyphens hge (headIs_hyphen hstop)
    rw [hread, merge, ih u rfl, content_append]
    exact List.forall_mem_map.mpr fun c _ => ⟨c, rfl⟩

theorem blurs_of_repeats {xs : List Element} (h : Repeats Verbatim t xs) :
    Blurs (t.map char?) (outline xs) := by
  induction h with
  | nil => exact .nil
  | cons hx _ ih =>
    rw [List.map_append, outline_cons]
    refine Blurs.append ?_ ih
    cases hx with
    | text ht => exact outline_singleton ▸ outline_textOf ht ▸ .refl _
    | _ => exact .gap _

theorem blurs_read (t : List Glyph) : Blurs (t.map char?) (outline (read replacement t)) := by
  refine @relates_read (fun t xs => Blurs (t.map char?) (outline xs)) .nil
    (fun t u xs ys ht hu => ?_) (fun g => ?_) (fun t ht => ?_) _
    (yields_replacement.mono fun _ _ => blurs_of_repeats) t
  · rw [List.map_append, outline_append]
    exact ht.append hu
  · rw [outline_glyph]
    exact .refl _
  · rw [outline_textOf ht]
    exact .refl _

theorem exists_of_read_hyphen (h : [some '-'] <+: outline (read replacement t)) :
    ∃ u, t = .char '-' :: u := by
  obtain ⟨o, ho⟩ := (blurs_read t).prefix_of (w := ['-']) (by decide) h
  obtain ⟨u, rfl, -⟩ := exists_of_map_char?_eq_append ['-'] ho.symm
  exact ⟨u, rfl⟩

theorem not_isMark_of_isWordChar (hc : Text.isWordChar c) : ¬ Quote.isMark c := by
  intro hmark
  change isIntrawordMark c = true at hmark
  simp only [isIntrawordMark, Bool.or_eq_true, beq_iff_eq] at hmark
  have hbacktick (h : c.toNat = 0x60) : c = '\x60' := Char.toNat_inj.mp h
  rcases hmark with ((((rfl | rfl) | rfl) | h) | rfl) | rfl
  case inl.inl.inr => rw [hbacktick h] at hc; exact absurd hc (by decide +kernel)
  all_goals exact absurd hc (by decide +kernel)

theorem joinsOn_iff {o : List (Option Char)} : joinsOn o ↔
    ∃ a d, isApostrophe a ∧ Text.isWordChar d ∧ [some a, some d] <+: o := by
  rcases o with _ | ⟨_ | a, _ | ⟨_ | d, rest⟩⟩ <;> simp [joinsOn, List.cons_prefix_cons]

theorem joinsOn_of_blurs {o o' : List (Option Char)} (h : Blurs o o') (hj : joinsOn o') :
    joinsOn o := by
  obtain ⟨a, d, ha, hd, hpre⟩ := joinsOn_iff.mp hj
  have hmark : ¬ Quote.isMark a := by
    rw [eq_apostrophe ha]
    decide
  refine joinsOn_iff.mpr ⟨a, d, ha, hd, h.prefix_of (w := [a, d]) ?_ hpre⟩
  exact List.forall_mem_cons.mpr
    ⟨hmark, List.forall_mem_singleton.mpr (not_isMark_of_isWordChar hd)⟩

theorem blurs_contraction (t : List Glyph) :
    Blurs (t.map char?) (outline (t.map contractionElement)) := by
  induction t with
  | nil => exact .nil
  | cons g t ih =>
    rw [List.map_cons, List.map_cons, outline_cons, ← List.singleton_append]
    refine Blurs.append ?_ ih
    unfold contractionElement
    split
    · next c =>
      split
      · exact .gap _
      · rw [← outline_singleton]
        exact outline_glyph (.char c) ▸ .refl _
    · rw [← outline_singleton, outline_glyph]
      exact .refl _

theorem contractionElement_of_apostrophe (hc : isApostrophe c) :
    contractionElement (.char c) = .symbol (String.singleton c) := by
  rw [contractionElement, if_pos hc]

theorem blurs_splitJoined (t : List Glyph) :
    Blurs (t.map char?) (outline ((splitJoined isApostrophe t).1.map contractionElement ++
      read replacement (splitJoined isApostrophe t).2)) := by
  have happend : (splitJoined isApostrophe t).1 ++ (splitJoined isApostrophe t).2 = t :=
    breakAt_append ..
  have hblurs := (blurs_contraction (splitJoined isApostrophe t).1).append
    (blurs_read (splitJoined isApostrophe t).2)
  rwa [← List.map_append, ← outline_append, happend] at hblurs

theorem joinsOn_splitJoined (t : List Glyph) :
    joinsOn (outline ((splitJoined isApostrophe t).1.map contractionElement ++
      read replacement (splitJoined isApostrophe t).2)) = false := by
  refine Bool.eq_false_iff.mpr fun h => ?_
  obtain ⟨a, d, ha, hd, o, ho⟩ := joinsOn_iff.mp (joinsOn_of_blurs (blurs_splitJoined t) h)
  obtain ⟨u, rfl, -⟩ := exists_of_map_char?_eq_append [a, d] ho.symm
  have hjoined : joined isApostrophe (.char a :: .char d :: u) := by
    rw [joined, headIs, ha, hd]
    exact Bool.or_true _
  have hsplit := splitJoined_of_joined hjoined
  change joinsOn (outline ((splitJoined isApostrophe (.char a :: .char d :: u)).1.map _ ++ _)) = true at h
  rw [hsplit, List.map_cons, contractionElement_of_apostrophe ha] at h
  cases h

theorem symbolless_splitJoined
    (h : Symbolless (outline (read replacement (splitJoined isApostrophe t).2))) :
    Symbolless (outline ((splitJoined isApostrophe t).1.map contractionElement ++
      read replacement (splitJoined isApostrophe t).2)) := by
  induction t with
  | nil => exact h
  | cons g t ih =>
    cases hjoined : joined isApostrophe (g :: t) with
    | false =>
      rw [splitJoined_of_not hjoined] at h ⊢
      exact h
    | true =>
      rw [splitJoined_of_joined hjoined] at h ⊢
      rw [List.map_cons, List.cons_append, outline_cons]
      cases g with
      | token digits => cases hjoined
      | char c =>
        by_cases hmark : isApostrophe c
        · rw [contractionElement_of_apostrophe hmark]
          exact .gap (ih h)
        · have hc : Text.isWordChar c := by
            rw [joined, Bool.eq_false_iff.mpr hmark, Bool.false_and, Bool.or_false] at hjoined
            exact hjoined
          have houtline : (element (.char c)).outline = [some c] := by
            rw [← outline_singleton, outline_glyph]
            rfl
          rw [contractionElement_of_word hc, houtline]
          exact .word hc (joinsOn_splitJoined t) (ih h)

theorem exists_of_run_hyphenRun {x : Element} {u : List Glyph}
    (h : hyphenRun.run t = some (x, u)) :
    ∃ n, 3 ≤ n ∧ x = .text (textOf ((List.replicate n '-').map .char)) ∧
      headIs (· == '-') u = false := by
  rw [hyphenRun_eq, run_bind] at h
  cases hstart : startsWith "---".toList t with
  | false => rw [run_literal_of_not hstart] at h; cases h
  | true =>
    obtain ⟨v, rfl⟩ : ∃ v, t = spell "---" ++ v := ⟨_, spell_of_startsWith hstart⟩
    obtain ⟨cs, rest, rfl, hcs, hrest⟩ := exists_chars_append (· == '-') v
    have hup : (upTo fun glyphs => !headIs (· == '-') glyphs).run (cs.map .char ++ rest) =
        some (cs.map .char, rest) := congrArg some (breakAt_chars hcs hrest)
    rw [run_literal_append, Option.bind_some, run_bind, hup, Option.bind_some, run_pure] at h
    obtain ⟨rfl, rfl⟩ := Prod.mk.inj (Option.some.inj h)
    have hall : cs = List.replicate cs.length '-' :=
      List.eq_replicate_iff.mpr ⟨rfl, fun c hc => beq_iff_eq.mp (hcs c hc)⟩
    refine ⟨3 + cs.length, Nat.le_add_right .., ?_, hrest⟩
    rw [List.replicate_add, ← hall, List.map_append]
    rfl

theorem symbolless_of_sign {x : Element} {u : List Glyph} (h : sign.run t = some (x, u))
    (hu : Symbolless (outline (read replacement u))) :
    Symbolless (outline (x :: read replacement u)) := by
  have hgap (hx : x.isText = false) : Symbolless (outline (x :: read replacement u)) := by
    rw [outline_cons, Element.outline_of_not_isText hx]
    exact .gap hu
  have hsymbol : symbol.Yields fun _ x => x.isText = false :=
    .firstOf (List.forall_mem_map.mpr fun _ _ => .after fun _ => .pure rfl)
  have hdash : emDash.Yields fun _ x => x.isText = false := .after fun _ => .after fun _ => .pure rfl
  rw [sign, run_firstOf_cons, Option.or_eq_some_iff] at h
  rcases h with h | ⟨-, h⟩
  · exact hgap (hsymbol _ _ _ h).choose_spec.2
  rw [run_firstOf_cons, Option.or_eq_some_iff] at h
  rcases h with h | ⟨-, h⟩
  · exact hgap (hdash _ _ _ h).choose_spec.2
  rw [run_firstOf_cons, Option.or_eq_some_iff] at h
  rcases h with h | ⟨-, h⟩
  · obtain ⟨n, hn, rfl, hhead⟩ := exists_of_run_hyphenRun h
    have hstop : ¬ [some '-'] <+: outline (read replacement u) := by
      intro hpre
      obtain ⟨v, rfl⟩ := exists_of_read_hyphen hpre
      cases hhead
    rw [outline_cons, textOf_map_char, Element.outline, String.toList_ofList, List.map_replicate]
    exact .hyphens (by omega) (by omega) hstop hu
  · cases h

theorem symbolless_of_run {xs : List Element} {u : List Glyph} (h : replacement.run t = some (xs, u))
    (hu : Symbolless (outline (read replacement u))) :
    Symbolless (outline (xs ++ read replacement u)) := by
  rw [Construct.run_replacement, Option.or_eq_some_iff] at h
  rcases h with h | ⟨-, h⟩
  · obtain ⟨⟨x, u'⟩, hsign, he⟩ := Option.map_eq_some_iff.mp h
    obtain ⟨rfl, rfl⟩ := Prod.mk.inj he
    exact symbolless_of_sign hsign hu
  · cases hword : headIs Text.isWordChar t with
    | false => rw [run_contraction_eq_none hword] at h; cases h
    | true =>
      rw [run_contraction hword] at h
      obtain ⟨rfl, rfl⟩ := Prod.mk.inj (Option.some.inj h)
      exact symbolless_splitJoined hu

theorem opens_sign : sign.Opens ['(', '.', '-'] := by
  have hsymbol : symbol.Opens ['(', '.'] := by
    refine .firstOf fun r hr => ?_
    simp only [List.map_cons, List.map_nil, List.mem_cons, List.not_mem_nil, or_false] at hr
    rcases hr with rfl | rfl | rfl | rfl
    all_goals exact (Opens.literal rfl).bind.mono (by decide)
  have hdash : emDash.Opens ['-'] := (Opens.literal rfl).bind
  have hrun : hyphenRun.Opens ['-'] := hyphenRun_eq ▸ (Opens.literal rfl).bind
  refine .firstOf fun r hr => ?_
  simp only [List.mem_cons, List.not_mem_nil, or_false] at hr
  rcases hr with rfl | rfl | rfl
  · exact hsymbol.mono (by decide)
  · exact hdash.mono (by decide)
  · exact hrun.mono (by decide)

theorem run_sign_of_untaken (h : replacement.take? t = none) : sign.run t = none := by
  refine Option.eq_none_iff_forall_ne_some.mpr fun ⟨x, u⟩ hsign => ?_
  refine take?_eq_none_iff.mp h [x] u ?_ (opens_sign.length_lt hsign)
  rw [Construct.run_replacement, hsign]
  rfl

theorem run_sign_hyphens (t : List Glyph) : sign.run (.char '-' :: .char '-' :: t) ≠ none := by
  intro h
  have hnone := run_firstOf_eq_none_iff.mp h
  have hdash := hnone emDash (by simp)
  have hrun := hnone hyphenRun (by simp)
  cases hhead : headIs (· == '-') t with
  | false =>
    have htwo : (literal "--").run (.char '-' :: .char '-' :: t) = some ((), t) := rfl
    rw [emDash, run_bind, htwo, Option.bind_some, run_bind, run_ahead, hhead] at hdash
    cases hdash
  | true =>
    obtain ⟨c, rest, rfl, hc⟩ := char_of_headIs hhead
    obtain rfl := beq_iff_eq.mp hc
    rw [hyphenRun_eq] at hrun
    cases hrun

theorem symbolless_read (t : List Glyph) : Symbolless (outline (read replacement t)) := by
  fun_induction read replacement t with
  | case1 => exact .nil
  | case2 digits rest ih => exact .gap ih
  | case3 c rest elements left htake ih =>
    exact symbolless_of_run (take?_eq_some_iff.mp htake) ih
  | case4 c rest htake hword split ih =>
    have hjoined : joined isApostrophe (.char c :: rest) := by rw [joined, hword, Bool.true_or]
    have hrun := run_replacement_word (t := .char c :: rest) hword
    refine absurd ?_ (take?_eq_none_iff.mp htake _ _ hrun)
    rw [splitJoined_of_joined hjoined]
    exact Nat.lt_succ_of_le (length_splitJoined_le rest)
  | case5 c rest htake hword ih =>
    have hsign := run_sign_of_untaken htake
    have houtline : (Element.text (String.singleton c)).outline = [some c] := by
      simp [Element.outline]
    rw [outline_cons, houtline]
    by_cases hc : c = '-'
    · subst hc
      refine .hyphens (n := 1) Nat.one_pos (by decide) (fun hpre => ?_) ih
      obtain ⟨u, rfl⟩ := exists_of_read_hyphen hpre
      exact run_sign_hyphens u hsign
    · refine .other (Bool.eq_false_iff.mpr hword) hc (fun name hname hpre => ?_) ih
      have hsymbol := run_firstOf_eq_none_iff.mp hsign symbol (by simp)
      have hmarks : ∀ name ∈ symbolNames, ∀ c ∈ name.toList, ¬ Quote.isMark c := by decide
      refine run_symbol_eq_none_iff.mp hsymbol name hname ?_
      exact (Blurs.keep c (blurs_read rest)).prefix_of (hmarks name hname) hpre

variable {options : Options}

theorem symbolless_parse {s : String} {parsed : List Element}
    (h : parse .replacements options s = .ok parsed) : Symbolless (outline parsed) := by
  rw [parse_eq_ok (by decide) h, outline_merge]
  exact symbolless_read _

theorem leaves_replacements : Leaves .replacements options where
  alone {s parsed} hs h t ht := by
    have hmerged : Merged parsed := (canonical_parse h).merged
    have hne : t ≠ "" := fun he => hmerged.nonempty (he ▸ ht)
    have hclean := clean_of_mem_parse (by decide) hs h ht
    have htext := outline_text_of_cut (fun _ _ h => Symbolless.of_cut h _ _ rfl) hmerged ht
      (symbolless_parse h)
    rw [parse_of_clean (by decide) (by decide) hclean]
    exact congrArg Except.ok ((merge_read_of_symbolless htext _ (map_char?_spell t)).trans (content_spell hne))
  within {s parsed u} h hu hrange :=
    ⟨outOfRange?_eq_none (by decide) hrange 0,
      merge_read_of_symbolless (symbolless_parse h) u hu⟩

end Fragment

end Manuscript
