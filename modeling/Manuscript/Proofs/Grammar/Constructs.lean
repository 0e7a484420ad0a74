import Manuscript.Proofs.Grammar.Building
import Manuscript.Proofs.Markup.Range

namespace Manuscript.Peg

open Peg.Expr Glyph Reader

variable {n : Nat} {options : Options} {name : Name} {e : Expression} {stop : List Glyph → Bool}

def ReadsElement (options : Options) (n : Nat) (e : Expression) (r : Reader Element) : Prop :=
  Reads n e r fun t ps x => t ≠ [] ∧ Builds options n t ps [x]

def TextPair (name : Name) (n : Nat) (t : List Glyph) (ps : List Tree) (a : List Glyph) : Prop :=
  t = a ∧ ps = [.node name n (t.flatMap chars) []] ∧ numerals t = []

theorem tests_reserved : Tests reserved atReserved := by
  intro n glyphs _
  have hhead : (String.singleton reservedChar).toList <+: glyphs.flatMap chars ↔
      atReserved glyphs = true := by
    rcases glyphs with _ | ⟨c | digits, rest⟩
    · simp [atReserved, atToken, headIs]
    · simpa [chars, List.cons_prefix_cons, atReserved, atToken, headIs, isReserved] using eq_comm
    · simp [chars, List.cons_prefix_cons, atReserved, atToken]
  refine ⟨fun hp => ?_, fun hp => .literalFails fun h => ?_⟩
  · obtain ⟨rest, hrest⟩ := hhead.mpr hp
    rw [cursor, ← hrest]
    exact ⟨_, .literal⟩
  · rw [hhead.mp h] at hp
    cases hp

theorem tests_choose {es : List Expression} {ps : List (List Glyph → Bool)}
    (h : List.Forall₂ Tests es ps) : Tests (choose es) fun glyphs => ps.any (· glyphs) := by
  induction h with
  | nil => exact .fail
  | cons he _ ih => exact he.choice ih

theorem reads_star (hname : grammar name = .atomic (star (except e))) (h : Tests e stop)
    (htoken : ∀ digits rest, stop (.token digits :: rest) = true) :
    Reads n (call name) (upTo stop) (TextPair name n) :=
  .atomic hname (((Steps.except h htoken).star n).mono fun _ _ _ ⟨ha, _, ht⟩ => ⟨ha, rfl, ht⟩)

theorem reads_plus (hname : grammar name = .atomic (plus (except e))) (h : Tests e stop)
    (htoken : ∀ digits rest, stop (.token digits :: rest) = true) :
    Reads n (call name) (someUpTo stop) fun t ps a => TextPair name n t ps a ∧ t ≠ [] :=
  .atomic hname (((Steps.except h htoken).plus n).mono
    fun _ _ _ ⟨ha, _, ht, hne⟩ => ⟨⟨ha, rfl, ht⟩, hne⟩)

theorem reads_chars {p : Char → Bool} (hname : grammar name = .atomic (plus (char p)))
    (hp : p reservedChar = false) :
    Reads n (call name) (someOf p) fun t ps a => TextPair name n t ps a ∧ t ≠ [] :=
  .atomic hname (((Steps.ofChar hp).plus n).mono
    fun _ _ _ ⟨ha, _, ht, hne⟩ => ⟨⟨ha, rfl, ht⟩, hne⟩)

theorem skip {text : String} {f : Expression} {α : Type} {r : Reader α}
    {R : List Glyph → List Tree → α → Prop} (h : reservedChar ∉ text.toList)
    (hf : Reads (n + size (spell text)) f r fun u qs a => R (spell text ++ u) qs a) :
    Reads n (.seq (.literal text) f) (Reader.literal text >>= fun _ => r) R := by
  refine Reads.bind (.literal h) ?_
  rintro _ _ _ ⟨rfl, rfl⟩
  exact hf

theorem reads_triplePlus : ReadsElement options n (call .triplePlus) Construct.triplePlus := by
  have hcontent : Tests (choose [literal "+++", reserved])
      fun glyphs => startsWith "+++".toList glyphs || atReserved glyphs :=
    (tests_choose (.cons (.literal (by decide)) (.cons tests_reserved .nil))).congr fun _ => by simp
  refine .compound rfl (skip (by decide) ?_)
  refine Reads.bind (reads_star rfl hcontent fun _ _ => rfl) ?_
  rintro t _ _ ⟨rfl, rfl, ht⟩
  exact skip (by decide) (.pure ⟨by simp [spell], .plain (by simp [ht]) rfl⟩)

theorem Tests.mark {text : String} (c : Char) (htext : text.toList = [c]) (hc : c ≠ reservedChar) :
    Tests (.literal text) (headIs (· == c)) := by
  refine (Tests.literal (by simpa [htext] using hc.symm)).congr fun glyphs => ?_
  rw [htext, startsWith_singleton]
  rcases glyphs with _ | ⟨d | digits, rest⟩
  · rfl
  · exact BEq.comm
  · rfl

theorem tests_newline : Tests newline atNewline := by
  refine (tests_choose (.cons (.mark '\n' rfl (by decide)) (.cons (.literal (by decide))
    (.cons (.mark '\r' rfl (by decide)) .nil)))).congr fun glyphs => ?_
  rcases glyphs with _ | ⟨c | digits, rest⟩
  · rfl
  · by_cases hr : c = '\r'
    · simp [headIs, atNewline, Cause.isNewline, startsWith, hr]
    · have hno : ('\r' == c) = false := beq_eq_false_iff_ne.mpr (Ne.symm hr)
      simp [headIs, atNewline, Cause.isNewline, startsWith, hno]
  · rfl

theorem tests_heads {es : List Expression} {ps : List (Char → Bool)}
    (h : List.Forall₂ (fun e p => Tests e (headIs p)) es ps) :
    Tests (choose (es ++ [reserved])) fun glyphs =>
      atReserved glyphs || headIs (fun c => ps.any (· c)) glyphs := by
  induction h with
  | nil =>
    refine (tests_reserved.choice .fail).congr fun glyphs => ?_
    rcases glyphs with _ | ⟨c | digits, rest⟩ <;> simp [headIs]
  | @cons e p es ps he _ ih =>
    refine (he.choice ih).congr fun glyphs => ?_
    rcases glyphs with _ | ⟨c | digits, rest⟩ <;> simp [headIs, Bool.or_left_comm]

theorem reads_singlePlus : ReadsElement options n (call .singlePlus) Construct.singlePlus := by
  have hopen : Tests (choose [blank, literal "+"]) (headIs fun c => Text.isBlank c || c == '+') :=
    (tests_choose (.cons (.char (by decide)) (.cons (.mark '+' rfl (by decide)) .nil))).congr
      fun glyphs => by simp [← headIs_or]
  have hcontent : Tests (choose [literal "+", newline, reserved]) fun glyphs =>
      atReserved glyphs || headIs (fun c => c == '+' || Cause.isNewline c) glyphs :=
    (tests_heads (.cons (.mark '+' rfl (by decide)) (.cons tests_newline .nil))).congr
      fun glyphs => by simp
  have hreader : Construct.singlePlus = (do
      literal "+"
      let inner ← (do
        ahead fun glyphs => !headIs (fun c => Text.isBlank c || c == '+') glyphs
        someUpTo fun glyphs =>
          atReserved glyphs || headIs (fun c => c == '+' || Cause.isNewline c) glyphs)
      literal "+"
      ahead fun glyphs => !headIs Text.isWordChar glyphs
      return Construct.shielded .singlePlus inner) := by
    simp only [Construct.singlePlus, bind_assoc]
  rw [hreader]
  refine .compound rfl (skip (by decide) ?_)
  refine Reads.bind (P := TextPair .singlePlusContent (n + size (spell "+"))) ?_ ?_
  · refine .atomic rfl (Reads.bind (.notAhead hopen) ?_)
    rintro _ _ _ ⟨rfl, rfl⟩
    exact ((Steps.except hcontent fun _ _ => rfl).plus _).mono fun t ps a ⟨ha, _, ht, _⟩ => ⟨ha, rfl, ht⟩
  rintro t _ _ ⟨rfl, rfl, ht⟩
  refine skip (by decide) (Reads.bind (.notAhead (.char isWordChar_reservedChar)) ?_)
  rintro _ _ _ ⟨rfl, rfl⟩
  exact .pure ⟨by simp [spell], .plain (by simp [ht]) rfl⟩

theorem reads_bracketed : ReadsElement options n (call .bracketed) Construct.bracketed := by
  have hcontent : Tests (choose [literal "]", reserved]) fun glyphs =>
      atReserved glyphs || headIs (· == ']') glyphs :=
    (tests_heads (.cons (.mark ']' rfl (by decide)) .nil)).congr fun _ => by simp
  refine .compound rfl (skip (by decide) (Reads.bind (reads_star rfl hcontent fun _ _ => rfl) ?_))
  rintro t _ _ ⟨rfl, rfl, ht⟩
  exact skip (by decide) (.pure ⟨by simp [spell], .plain (by simp [ht]) rfl⟩)

theorem reads_passthrough : ReadsElement options n (choose passthrough) Construct.passthrough :=
  .firstOf (.cons reads_triplePlus (.cons reads_singlePlus (.cons reads_bracketed .nil)))

theorem reads_spaces :
    Reads n spaces Reader.spaces fun t ps a => t = a ∧ ps = [] ∧ numerals t = [] :=
  (Steps.ofLiteral ' ' rfl (by decide)).star n

theorem reads_crossReference :
    ReadsElement options n (call .crossReference) Construct.crossReference := by
  have hid : Tests (choose [literal ",", literal ">", literal "<", blank, reserved])
      fun glyphs => atReserved glyphs ||
        headIs (fun c => c == ',' || c == '>' || c == '<' || Text.isBlank c) glyphs :=
    (tests_heads (.cons (.mark ',' rfl (by decide)) (.cons (.mark '>' rfl (by decide))
      (.cons (.mark '<' rfl (by decide)) (.cons (.char (by decide)) .nil))))).congr
        fun _ => by simp [Bool.or_assoc]
  have hlabel : Tests (choose [literal ">>", reserved]) fun glyphs =>
      startsWith ">>".toList glyphs || atReserved glyphs :=
    (tests_choose (.cons (.literal (by decide)) (.cons tests_reserved .nil))).congr fun _ => by simp
  refine .compound rfl (skip (by decide) (Reads.bind (reads_plus rfl hid fun _ _ => rfl) ?_))
  rintro t _ _ ⟨⟨rfl, rfl, ht⟩, -⟩
  refine Reads.bind (P := fun u ps label => numerals u = [] ∧
    (label = none ∧ ps = [] ∨ ∃ l m, label = some l ∧
      ps = [.node .crossReferenceLabel m (l.flatMap chars) []])) ?_ ?_
  · refine .optional (skip (by decide) (Reads.bind reads_spaces ?_)) ⟨rfl, .inl ⟨rfl, rfl⟩⟩
    rintro gap _ _ ⟨rfl, rfl, hgap⟩
    refine (reads_plus rfl hlabel fun _ _ => rfl).seq_empty.mono ?_
    rintro l _ _ ⟨⟨rfl, rfl, hl⟩, -⟩
    exact ⟨by simp [hgap, hl], .inr ⟨_, _, rfl, rfl⟩⟩
  rintro u _ label ⟨hu, ⟨rfl, rfl⟩ | ⟨l, m, rfl, rfl⟩⟩
  · exact skip (by decide) (.pure ⟨by simp [spell], .plain (by simp [ht, hu]) rfl⟩)
  · exact skip (by decide) (.pure ⟨by simp [spell], .plain (by simp [ht, hu]) rfl⟩)

theorem reads_literals {α : Type} (names : List String) {f : String → α}
    {Q : List Glyph → List Tree → α → Prop} (h : ∀ s ∈ names, reservedChar ∉ s.toList)
    (hQ : ∀ s ∈ names, Q (spell s) [] (f s)) :
    Reads n (choose (names.map literal))
      (firstOf (names.map fun s => do Reader.literal s; return f s)) Q := by
  induction names with
  | nil => exact .fail
  | cons s names ih =>
    obtain ⟨hs, hnames⟩ := List.forall_mem_cons.mp h
    obtain ⟨hq, hQ⟩ := List.forall_mem_cons.mp hQ
    exact (Reads.literal_return hs hq).orElse (ih hnames hQ)

theorem reads_specialChar : ReadsElement options n (call .special) Construct.specialChar := by
  refine .atomic rfl (reads_literals ["<", ">", "&"] (by decide) fun name hname => ?_)
  have hne : ∀ name ∈ ["<", ">", "&"], spell name ≠ [] := by decide
  refine ⟨hne name hname, .plain (numerals_spell name) ?_⟩
  rw [flatMap_chars_spell, build, String.ofList_toList]
  rfl

theorem reads_special :
    ReadsElement options n (choose [call .crossReference, call .special]) Construct.special :=
  reads_crossReference.orElse reads_specialChar.choice_fail

theorem reads_name {p q : Char → Bool} (hpq : ∀ c, p c → q c) (hq : q reservedChar = false) :
    Reads n (seq (char p) (star (char q))) (do ahead (headIs p); someOf q)
      fun t ps a => t = a ∧ ps = [] ∧ numerals t = [] ∧ t ≠ [] := by
  have hp : p reservedChar = false := Bool.eq_false_iff.mpr fun h => by simp [hpq _ h] at hq
  intro glyphs hg
  rw [ReadsAt, run_bind, run_ahead]
  cases hhead : headIs p glyphs with
  | false => exact ⟨fun _ _ hr => (by cases hr), fun _ => .seqFails ((Tests.char hp n _ hg).2 hhead)⟩
  | true =>
    obtain ⟨c, rest, rfl, hc⟩ := char_of_headIs hhead
    obtain ⟨t, ps, he, hrun, rfl, rfl, ht⟩ :=
      ((Steps.ofChar hq).star (n + c.utf8Size) rest hg.tail).1 _ _ rfl
    have hsome : (someOf q).run (.char c :: rest) =
        some (.char c :: (breakAt (fun glyphs => !headIs q glyphs) rest).1,
          (breakAt (fun glyphs => !headIs q glyphs) rest).2) := by
      have hgo : (!headIs q (.char c :: rest)) = false := by simp [headIs, hpq c hc]
      rw [someOf, run_someUpTo, breakAt, hgo]
      rfl
    refine ⟨fun a left hr => ?_, fun hr => by rw [if_pos rfl, Option.bind_some, hsome] at hr; cases hr⟩
    rw [if_pos rfl, Option.bind_some, hsome] at hr
    obtain ⟨rfl, rfl⟩ := Prod.mk.inj (Option.some.inj hr)
    refine ⟨_, [], congrArg (_ :: ·) he, ?_, rfl, rfl, ht, List.cons_ne_nil _ _⟩
    have hseq := Run.seq (.char hc) hrun
    rwa [Nat.add_assoc] at hseq

theorem reads_attributeName :
    Reads n (call .attributeName) Construct.attributeName fun t ps name =>
      name = textOf t ∧ ps = [.node .attributeName n (t.flatMap chars) []] ∧ numerals t = [] ∧
        t ≠ [] := by
  have hreader : Construct.attributeName =
      textOf <$> (do ahead (headIs Construct.isNameStart); someOf Construct.isNameChar) := by
    simp [Construct.attributeName]
  rw [hreader]
  refine .atomic rfl (Reads.map ?_)
  refine (reads_name (fun c hc => ?_) (by decide)).mono ?_
  · simp only [hc, Bool.true_or]
  · rintro t ps _ ⟨rfl, -, ht, hne⟩
    exact ⟨rfl, rfl, ht, hne⟩

theorem reads_attributeReference :
    ReadsElement options n (call .attributeReference) Construct.attributeReference := by
  refine .compound rfl (skip (by decide) (Reads.bind reads_attributeName ?_))
  rintro t _ _ ⟨rfl, rfl, ht, -⟩
  exact skip (by decide) (.pure ⟨by simp [spell], .plain (by simp [ht]) rfl⟩)

theorem reads_escapedReference :
    ReadsElement options n (call .escapedReference) Construct.escapedReference := by
  have hreader : Construct.escapedReference = (do
      Reader.literal "\\"
      Reader.literal "\x7b"
      let name ← Construct.attributeName
      Reader.literal "\x7d"
      return .text (literalReference name)) := by
    rw [Construct.escapedReference, show "\\\x7b" = "\\" ++ "\x7b" from rfl, literal_append, bind_assoc]
  rw [hreader]
  refine .atomic rfl (skip (by decide) (skip (by decide) (Reads.bind reads_attributeName ?_)))
  rintro t _ _ ⟨rfl, rfl, ht, -⟩
  refine skip (by decide) (.pure ⟨by simp [spell], .plain (by simp [ht]) ?_⟩)
  have hkept : String.ofList (((spell "\\" ++ (spell "\x7b" ++ (t ++ (spell "\x7d" ++ [])))).flatMap
      chars).drop 1) = literalReference (textOf t) := by
    simp [spell, chars, literalReference, textOf, String.append_assoc]
  rw [build, hkept]
  rfl

theorem tests_lineEnd : Tests (choice newline .finish) atLineEnd :=
  (tests_newline.choice .finish).congr fun _ => Bool.or_comm ..

theorem reads_counter : ReadsElement options n (call .counter) Construct.counter := by
  have hstart : Tests (choose [literal "\x7d", reserved, newline]) fun glyphs =>
      atReserved glyphs || headIs (fun c => c == '\x7d' || Cause.isNewline c) glyphs :=
    (tests_choose (.cons (.mark '\x7d' rfl (by decide)) (.cons tests_reserved
      (.cons tests_newline .nil)))).congr fun glyphs => by
        simp [← headIs_or, atNewline, Bool.or_left_comm]
  have hkind : Reads (n + size (spell "\x7b")) (call .counterKind)
      (Reader.orElse (do Reader.literal "counter2"; return true)
        (do Reader.literal "counter"; return false)) fun t ps hidden => numerals t = [] ∧
          ps = [.node .counterKind (n + size (spell "\x7b")) (t.flatMap chars) []] ∧
          hidden = decide (String.ofList (t.flatMap chars) = "counter2") :=
    .atomic rfl (.orElse (.literal_return (by decide) ⟨rfl, rfl, by decide⟩)
      (.choice_fail (.literal_return (by decide) ⟨rfl, rfl, by decide⟩)))
  refine .compound rfl (skip (by decide) (Reads.bind hkind ?_))
  rintro k _ _ ⟨hk, rfl, rfl⟩
  refine skip (by decide) (Reads.bind reads_attributeName ?_)
  rintro t _ _ ⟨rfl, rfl, ht, -⟩
  refine Reads.bind (P := fun u ps start => numerals u = [] ∧
    (start = none ∧ ps = [] ∨ ∃ l m, start = some l ∧
      ps = [.node .counterStart m (l.flatMap chars) []])) ?_ ?_
  · refine .optional (skip (by decide) ?_) ⟨rfl, .inl ⟨rfl, rfl⟩⟩
    refine (reads_plus rfl hstart fun _ _ => rfl).mono ?_
    rintro l _ _ ⟨⟨rfl, rfl, hl⟩, -⟩
    exact ⟨by simp [hl], .inr ⟨_, _, rfl, rfl⟩⟩
  rintro u _ start ⟨hu, ⟨rfl, rfl⟩ | ⟨l, m, rfl, rfl⟩⟩
  · exact skip (by decide) (.pure ⟨by simp [spell], .plain (by simp [hk, ht, hu]) rfl⟩)
  · exact skip (by decide) (.pure ⟨by simp [spell], .plain (by simp [hk, ht, hu]) rfl⟩)

theorem reads_attributeOrCounter :
    ReadsElement options n
      (choose [call .escapedReference, call .counter, call .attributeReference])
      Construct.attributeOrCounter :=
  .firstOf (.cons reads_escapedReference (.cons reads_counter (.cons reads_attributeReference .nil)))

theorem reads_sign (sign : Sign) :
    ReadsElement options n (call (.sign sign))
      (do Reader.literal sign.text; return .symbol sign.text) := by
  have hsign : reservedChar ∉ sign.text.toList ∧ spell sign.text ≠ [] := by
    cases sign <;> decide
  refine .atomic rfl (.literal_return hsign.1 ⟨hsign.2, .plain (numerals_spell _) ?_⟩)
  rw [flatMap_chars_spell, build, String.ofList_toList]
  rfl

theorem reads_emDash : ReadsElement options n (call .emDash) Construct.emDash := by
  refine .atomic rfl (skip (by decide) (Reads.map (g := fun _ => Element.symbol "--") ?_))
  refine (Reads.notAhead (.mark '-' rfl (by decide))).mono ?_
  rintro _ _ _ ⟨rfl, rfl⟩
  exact ⟨by decide, .plain rfl rfl⟩

theorem reads_lineBreak : ReadsElement options n (call .lineBreak) Construct.lineBreak := by
  refine .atomic rfl (skip (by decide) (Reads.map (g := fun _ => Element.lineBreak) ?_))
  refine (Reads.ahead tests_lineEnd).mono ?_
  rintro _ _ _ ⟨rfl, rfl⟩
  exact ⟨by decide, .plain rfl rfl⟩

theorem hyphenRun_eq : Construct.hyphenRun = (do
    Reader.literal "---"
    let rest ← upTo fun glyphs => !headIs (· == '-') glyphs
    return .text (textOf (spell "---" ++ rest))) := by
  refine ext_run fun glyphs => ?_
  rw [Construct.hyphenRun, run_bind, run_ahead, run_bind]
  cases hstart : startsWith "---".toList glyphs with
  | false => rw [run_literal_of_not hstart]; rfl
  | true =>
    obtain ⟨rest, rfl⟩ : ∃ rest, glyphs = spell "---" ++ rest := ⟨_, spell_of_startsWith hstart⟩
    rw [run_literal_append]
    rfl

theorem reads_hyphenRun : ReadsElement options n (call .hyphenRun) Construct.hyphenRun := by
  have hreader : Construct.hyphenRun = (do
      Reader.literal "-"
      Reader.literal "-"
      Reader.literal "-"
      let rest ← upTo fun glyphs => !headIs (· == '-') glyphs
      return .text (textOf (spell "---" ++ rest))) := by
    rw [hyphenRun_eq, show "---" = "-" ++ ("-" ++ "-") from rfl, literal_append, literal_append,
      bind_assoc, bind_assoc]
  rw [hreader]
  refine .atomic rfl (skip (by decide) (skip (by decide) (skip (by decide) ?_)))
  refine Reads.bind ((Steps.ofLiteral '-' rfl (by decide)).star _) ?_
  rintro t _ _ ⟨rfl, rfl, ht⟩
  refine .pure ⟨by simp [spell], .plain (by simp [ht]) ?_⟩
  rw [build]
  simp [spell, textOf]
  rfl

theorem reads_single {r : Reader Element} (h : ReadsElement options n e r) :
    Reads n e (Construct.single r) fun t ps xs => t ≠ [] ∧ Builds options n t ps xs :=
  .map h

end Manuscript.Peg
