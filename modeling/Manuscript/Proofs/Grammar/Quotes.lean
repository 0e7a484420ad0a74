import Manuscript.Proofs.Grammar.Contents
import Manuscript.Proofs.Grammar.Opening
import Manuscript.Proofs.Grammar.Words

namespace Manuscript

open Glyph Reader

namespace Quote

variable {o : Opening} {glyphs left : List Glyph}

def contents (o : Opening) : Reader (List Element) := ofTake (content? o)

theorem run_quote (glyphs : List Glyph) :
    quote.run glyphs = (read? glyphs).map fun found => (found.1, found.2.left) := rfl

theorem run_contents (o : Opening) (glyphs : List Glyph) :
    (contents o).run glyphs = (content? o glyphs).map fun found => (found.1, found.2.left) := rfl

theorem run_contents_of_closing {cs : List Char} (hopens : (closing o).Opens cs)
    (h : (closing o).run glyphs = some ((), left)) : (contents o).run glyphs = some ([], left) := by
  have ht : (closing o).take? glyphs = some ((), ⟨left, (closing o).suffix h, hopens.length_lt h⟩) :=
    take?_eq_some_iff.mpr h
  rw [run_contents, content?.eq_def, ht]
  rfl

theorem run_contents_nil (h : (closing o).run [] = none) : (contents o).run [] = none := by
  rw [run_contents, content?, take?_of_run_eq_none h]
  rfl

theorem run_contents_of_quote {x : Element} (h : (closing o).run glyphs = none)
    (hquote : quote.run glyphs = some (x, left)) :
    (contents o).run glyphs = ((contents o).run left).map (Prod.map (x :: ·) id) := by
  rw [run_quote, Option.map_eq_some_iff] at hquote
  obtain ⟨⟨y, rest⟩, hread, hxs⟩ := hquote
  obtain ⟨rfl, rfl⟩ := Prod.mk.inj hxs
  cases glyphs with
  | nil => exact absurd rest.shorter (Nat.not_lt_zero _)
  | cons g tail =>
    rw [run_contents, content?, take?_of_run_eq_none h]
    simp only [hread]
    rw [run_contents]
    cases content? o rest.left <;> rfl

theorem run_contents_of_glyph {g : Glyph} (h : (closing o).run (g :: left) = none)
    (hquote : quote.run (g :: left) = none) :
    (contents o).run (g :: left) = ((contents o).run left).map (Prod.map (g.element :: ·) id) := by
  rw [run_quote, Option.map_eq_none_iff] at hquote
  rw [run_contents, content?, take?_of_run_eq_none h]
  simp only [hquote]
  rw [run_contents]
  cases content? o left <;> rfl

def starts : List Char :=
  ['*', '_', '\x60', '#', '~', '^', '[', '"', '\x27', '\\']

theorem opens_quote : quote.Opens starts := by
  rw [quote_eq_leaf]
  exact (opens_leaf.orElse opens_opening.bind).mono (by decide)

theorem run_contents_chars {ds : List Char} (hopens : (closing o).Opens ds) {cs : List Char}
    (hcs : ∀ c ∈ cs, c ∉ ds ∧ c ∉ starts) (rest : List Glyph) :
    (contents o).run (cs.map .char ++ rest) =
      ((contents o).run rest).map (Prod.map ((cs.map Glyph.char).map element ++ ·) id) := by
  induction cs with
  | nil =>
    change (contents o).run rest = _
    cases (contents o).run rest <;> rfl
  | cons c cs ih =>
    obtain ⟨⟨hclosing, hquote⟩, hcs⟩ := List.forall_mem_cons.mp hcs
    rw [List.map_cons, List.cons_append, run_contents_of_glyph (hopens.run_eq_none hclosing _)
      (opens_quote.run_eq_none hquote _), ih hcs]
    cases (contents o).run rest <;> rfl

theorem not_mem_of_word {cs : List Char} (hcs : ∀ c ∈ cs, Text.isWordChar c = false) {c : Char}
    (hc : Text.isWordChar c) : c ∉ cs :=
  fun hmem => absurd hc (Bool.eq_false_iff.mp (hcs c hmem))

theorem not_starts_of_word {c : Char} (hc : Text.isWordChar c) : c ∉ starts :=
  not_mem_of_word (by decide +kernel) hc

end Quote

namespace Peg

open Peg.Expr Quote

variable {n : Nat} {options : Options}

section

variable {es fs : List Expression} {c : Char} {rest : List Glyph} {digits : List Char}
  {outcome : Option (List Tree × Cursor)}

theorem run_token (hg : Scanned (.token digits :: rest)) :
    Run grammar (choose (call .placeholder :: es)) (cursor n (.token digits :: rest))
      (some ([placeholderPair n digits], cursor (n + size [.token digits]) rest)) := by
  obtain ⟨-, hne, hdigits⟩ := hg.of_token
  exact .first (run_placeholder hne hdigits n)

theorem run_construct {found : List Tree × Cursor} (hg : Scanned (.char c :: rest))
    (h : Run grammar (choose es) (cursor n (.char c :: rest)) (some found)) :
    Run grammar (choose (call .placeholder :: (es ++ fs))) (cursor n (.char c :: rest)) (some found) :=
  .second (not_placeholder hg n) (.choose_append (.first h))

theorem run_otherwise (hg : Scanned (.char c :: rest))
    (h : Run grammar (choose es) (cursor n (.char c :: rest)) none)
    (hfs : Run grammar (choose fs) (cursor n (.char c :: rest)) outcome) :
    Run grammar (choose (call .placeholder :: (es ++ fs))) (cursor n (.char c :: rest)) outcome :=
  .second (not_placeholder hg n) (.choose_append (.second h hfs))

theorem run_anyChar (n : Nat) (c : Char) (rest : List Glyph) :
    Run grammar (call .anyChar) (cursor n (.char c :: rest))
      (some ([.node .anyChar n [c] []], cursor (n + c.utf8Size) rest)) :=
  .call (.char rfl) rfl

theorem not_anyChar (n : Nat) : Run grammar (call .anyChar) (cursor n []) none :=
  .callFails (.charFails fun _ h => by cases h)

theorem builds_anyChar (n : Nat) (c : Char) :
    Builds options n [.char c] [.node .anyChar n [c] []] [element (.char c)] :=
  .plain rfl rfl

end

def quoteChoice : List Expression := [call .escapedQuote, Peg.quotation, call .quotedText]

theorem quotedElement_eq :
    quotedElement = choose (call .placeholder :: (quoteChoice ++ [call .plainWord, call .anyChar])) :=
  rfl

def item (close : Expression) : Expression := seq (no close) quotedElement

inductive Fills (options : Options) (o : Opening) (close : Expression) (n : Nat) :
    List Glyph → Prop
  | empty {glyphs : List Glyph} : Run grammar (item close) (cursor n glyphs) none →
      (contents o).run glyphs = ((closing o).run glyphs).map (fun found => ([], found.2)) →
      Fills options o close n glyphs
  | filled {t left : List Glyph} {ps : List Tree} {xs : List Element} :
      Run grammar (plus (item close)) (cursor n (t ++ left)) (some (ps, cursor (n + size t) left)) →
      Builds options n t ps xs → xs ≠ [] →
      (contents o).run (t ++ left) = ((closing o).run left).map (fun found => (xs, found.2)) →
      Fills options o close n (t ++ left)

structure Closes (o : Opening) (close : Expression) : Prop where
  reads : ∀ n, Reads n close (closing o) fun t ps _ => ps = [] ∧ numerals t = []
  opens : ∃ cs, (closing o).Opens cs ∧ ∀ c ∈ cs, Text.isWordChar c = false

def QuoteAt (options : Options) (n : Nat) (glyphs : List Glyph) : Prop :=
  ReadsAt n (choose quoteChoice) quote (fun t ps x => t ≠ [] ∧ Builds options n t ps [x]) glyphs

variable {o : Opening} {close : Expression}

theorem Fills.step {t rest : List Glyph} {ps : List Tree} {xs : List Element}
    (h : Fills options o close (n + size t) rest)
    (hrun : Run grammar (item close) (cursor n (t ++ rest)) (some (ps, cursor (n + size t) rest)))
    (hbuilds : Builds options n t ps xs) (hne : xs ≠ [])
    (hcontents : (contents o).run (t ++ rest) =
      ((contents o).run rest).map (Prod.map (xs ++ ·) id)) :
    Fills options o close n (t ++ rest) := by
  cases h with
  | empty hitem hrest =>
    refine .filled (.seq hrun (.stop hitem)) ?_ hne ?_
    · rwa [List.append_nil]
    · rw [hcontents, hrest]
      cases (closing o).run rest <;> simp
  | @filled u left qs ys hplus hys hne' hrest =>
    have hstar : Run grammar (star (item close)) (cursor (n + size t) (u ++ left))
        (some (qs, cursor (n + size (t ++ u)) left)) := by
      rw [size_append, ← Nat.add_assoc]
      cases hplus with
      | seq hitem hstar => exact .more hitem hstar
    rw [← List.append_assoc] at hrun hcontents ⊢
    refine .filled (.seq hrun hstar) (hbuilds.append hys) (List.append_ne_nil_of_left_ne_nil hne _) ?_
    rw [hcontents, hrest]
    cases (closing o).run left <;> rfl

section

variable {glyphs : List Glyph} {c : Char} {rest : List Glyph}

theorem run_item (h : Closes o close) (hg : Scanned glyphs) (hclosing : (closing o).run glyphs = none)
    {outcome : Option (List Tree × Cursor)}
    (hrun : Run grammar quotedElement (cursor n glyphs) outcome) :
    Run grammar (item close) (cursor n glyphs) outcome := by
  have hno : Run grammar (no close) (cursor n glyphs) (some ([], cursor n glyphs)) :=
    .no ((h.reads n glyphs hg).2 hclosing)
  cases outcome with
  | none => exact .seqFailsAfter hno hrun
  | some found => exact .seq hno hrun

theorem not_item_of_closing (h : Closes o close) (hg : Scanned glyphs) {left : List Glyph}
    (hclosing : (closing o).run glyphs = some ((), left)) :
    Run grammar (item close) (cursor n glyphs) none := by
  obtain ⟨t, ps, -, hrun, -⟩ := (h.reads n glyphs hg).1 _ _ hclosing
  exact .seqFails (.noFails hrun)

theorem not_quotedElement_nil (hquote : QuoteAt options n []) :
    Run grammar quotedElement (cursor n []) none := by
  have hnone : quote.run [] = none := by
    refine Option.eq_none_iff_forall_ne_some.mpr fun found hfound => ?_
    exact absurd (opens_quote.length_lt hfound) (Nat.not_lt_zero _)
  have hword : Run grammar (call .plainWord) (cursor n []) none :=
    (reads_plainWord [] (by simp [Scanned, scan])).2 rfl
  rw [quotedElement_eq]
  refine .second (.callFails (.seqFails (.literalFails (by decide)))) (.choose_append ?_)
  refine .second (hquote.2 hnone) (.second hword (.second (not_anyChar n) ?_))
  exact .charFails fun _ hc => by cases hc

theorem Fills.of_quote (h : Closes o close) (hg : Scanned (.char c :: glyphs))
    (hclosing : (closing o).run (.char c :: glyphs) = none) (hquote : QuoteAt options n (.char c :: glyphs))
    {x : Element} (hread : quote.run (.char c :: glyphs) = some (x, rest))
    (hrest : ∀ m, rest.length < (.char c :: glyphs).length → Fills options o close m rest) :
    Fills options o close n (.char c :: glyphs) := by
  obtain ⟨t, ps, he, hrun, hne, hbuilds⟩ := hquote.1 x rest hread
  rw [he] at hrun hclosing hg hread ⊢
  refine (hrest _ ?_).step ?_ hbuilds (List.cons_ne_nil _ _) (run_contents_of_quote hclosing hread)
  · exact opens_quote.length_lt (he ▸ hread)
  · refine run_item h hg hclosing ?_
    rw [← he] at hg hrun ⊢
    exact run_construct hg hrun

theorem Fills.of_token (h : Closes o close) {digits : List Char} (hg : Scanned (.token digits :: rest))
    (hclosing : (closing o).run (.token digits :: rest) = none)
    (hrest : ∀ m, Fills options o close m rest) :
    Fills options o close n (.token digits :: rest) := by
  have hread : quote.run (.token digits :: rest) = none := by
    refine Option.eq_none_iff_forall_ne_some.mpr fun found hfound => ?_
    obtain ⟨c, -, left, he⟩ := opens_quote.exists_char hfound
    cases (List.cons.inj he).1
  exact (hrest _).step (t := [.token digits]) (run_item h hg hclosing (run_token hg))
    (.of_build build_placeholderPair) (List.cons_ne_nil _ _) (run_contents_of_glyph hclosing hread)

theorem Fills.of_char (h : Closes o close) (hg : Scanned (.char c :: rest))
    (hclosing : (closing o).run (.char c :: rest) = none) (hquote : QuoteAt options n (.char c :: rest))
    (hread : quote.run (.char c :: rest) = none) (hc : Text.isWordChar c = false)
    (hrest : ∀ m, Fills options o close m rest) :
    Fills options o close n (.char c :: rest) := by
  have hword : Run grammar (call .plainWord) (cursor n (.char c :: rest)) none :=
    (reads_plainWord _ hg).2 (run_someOf_of_not hc)
  refine (hrest _).step (t := [.char c]) (run_item h hg hclosing ?_) (builds_anyChar n c)
    (List.cons_ne_nil _ _) (run_contents_of_glyph hclosing hread)
  exact run_otherwise hg (hquote.2 hread) (.second hword (.first (run_anyChar n c rest)))

theorem Fills.of_word (h : Closes o close) {cs : List Char} (hne : cs ≠ [])
    (hg : Scanned (cs.map .char ++ rest)) (hcs : ∀ c ∈ cs, Text.isWordChar c)
    (hstop : headIs Text.isWordChar rest = false)
    (hquote : QuoteAt options n (cs.map .char ++ rest))
    (hrest : ∀ m, Fills options o close m rest) :
    Fills options o close n (cs.map .char ++ rest) := by
  obtain ⟨ds, hopens, hds⟩ := h.opens
  obtain ⟨c, cs', rfl⟩ := List.exists_cons_of_ne_nil hne
  have hc := hcs c List.mem_cons_self
  have hclosing : (closing o).run ((c :: cs').map .char ++ rest) = none :=
    hopens.run_eq_none (not_mem_of_word hds hc) _
  have hread : quote.run ((c :: cs').map .char ++ rest) = none :=
    opens_quote.run_eq_none (not_starts_of_word hc) _
  obtain ⟨t, ps, he, hrun, ⟨⟨rfl, rfl, ht⟩, -⟩, -⟩ :=
    (reads_plainWord (n := n) _ hg).1 _ _ (run_someOf_append hne hcs hstop)
  have hbuilds : Builds options n ((c :: cs').map .char)
      [.node .plainWord n (((c :: cs').map Glyph.char).flatMap chars) []]
      (((c :: cs').map Glyph.char).map element) :=
    (Builds.plain ht rfl).congr (merge_map_element ht).symm
  refine (hrest _).step (run_item h hg hclosing ?_) hbuilds (List.cons_ne_nil _ _)
    (run_contents_chars hopens (fun c hc =>
      ⟨not_mem_of_word hds (hcs c hc), not_starts_of_word (hcs c hc)⟩) rest)
  exact run_otherwise hg (hquote.2 hread) (.first hrun)

theorem fills (h : Closes o close) {k : Nat}
    (hquote : ∀ n glyphs, glyphs.length < k → Scanned glyphs → QuoteAt options n glyphs)
    {glyphs : List Glyph} (hlength : glyphs.length < k) (hg : Scanned glyphs) (n : Nat) :
    Fills options o close n glyphs := by
  induction hl : glyphs.length using Nat.strongRecOn generalizing glyphs n with
  | ind l ih =>
    have hrest {rest : List Glyph} (hshorter : rest.length < glyphs.length) (hsuffix : rest <:+ glyphs)
        (m : Nat) : Fills options o close m rest :=
      ih _ (hl ▸ hshorter) (Nat.lt_trans hshorter hlength) (hg.suffix hsuffix) m rfl
    -- The closing mark goes first, then a quote, and then the first glyph or a whole word.
    cases hclosing : (closing o).run glyphs with
    | some found =>
      obtain ⟨⟨⟩, left⟩ := found
      obtain ⟨ds, hopens, -⟩ := h.opens
      refine .empty (not_item_of_closing h hg hclosing) ?_
      rw [run_contents_of_closing hopens hclosing, hclosing]
      rfl
    | none =>
      cases hread : quote.run glyphs with
      | some found =>
        obtain ⟨x, rest⟩ := found
        obtain ⟨c, -, left, rfl⟩ := opens_quote.exists_char hread
        exact .of_quote h hg hclosing (hquote n _ hlength hg) hread fun m hshorter =>
          hrest hshorter (quote.suffix hread) m
      | none =>
        rcases glyphs with _ | ⟨g, rest⟩
        · refine .empty (run_item h hg hclosing (not_quotedElement_nil (hquote n [] hlength hg))) ?_
          rw [run_contents_nil hclosing, hclosing]
          rfl
        · have htail := hrest (Nat.lt_succ_self rest.length) (List.suffix_cons g rest)
          cases g with
          | token digits => exact .of_token h hg hclosing htail
          | char c =>
            cases hc : Text.isWordChar c with
            | false => exact .of_char h hg hclosing (hquote n _ hlength hg) hread hc htail
            | true =>
              obtain ⟨cs, left, he, hcs, hstop⟩ := exists_chars_append Text.isWordChar (.char c :: rest)
              have hne : cs ≠ [] := by
                rintro rfl
                rw [List.map_nil, List.nil_append] at he
                rw [← he, headIs, hc] at hstop
                cases hstop
              have hshorter : left.length < (Glyph.char c :: rest).length := by
                rw [he, List.length_append, List.length_map]
                exact Nat.lt_add_of_pos_left (List.length_pos_iff.mpr hne)
              have hleft := hrest hshorter ⟨_, he.symm⟩
              rw [he] at hg hlength ⊢
              exact .of_word h hne hg hcs hstop (hquote n _ hlength hg) hleft

theorem readsAt_enclosed (h : Closes o close) (hg : Scanned glyphs)
    (hfills : Fills options o close n glyphs) :
    ReadsAt n (seq (quotedUpTo close) (seq close .empty)) (enclosed o) (Gives options n) glyphs := by
  have henclosed (glyphs : List Glyph) : (enclosed o).run glyphs =
      ((contents o).run glyphs).bind fun found =>
        if found.1.isEmpty then none else some (merge found.1, found.2) := by
    rw [enclosed, run_bind]
    change Option.bind ((contents o).run glyphs) _ = _
    refine congrArg _ (funext fun found => ?_)
    split <;> rfl
  cases hfills with
  | empty hitem hcontents =>
    have hnone : (enclosed o).run glyphs = none := by
      rw [henclosed, hcontents]
      cases (closing o).run glyphs <;> rfl
    exact ⟨fun a rest hr => (by rw [hnone] at hr; cases hr), fun _ => .seqFails (.seqFails hitem)⟩
  | @filled t left ps xs hplus hbuilds hne hcontents =>
    have hleft := ((h.reads (n + size t)).seq_empty) left (hg.suffix (List.suffix_append _ _))
    have hrun : (enclosed o).run (t ++ left) =
        ((closing o).run left).map fun found => (merge xs, found.2) := by
      rw [henclosed, hcontents]
      cases (closing o).run left with
      | none => rfl
      | some found => simp [hne]
    rw [ReadsAt, hrun]
    refine ⟨fun a rest hr => ?_, fun hr => .seqFailsAfter hplus (hleft.2 (Option.map_eq_none_iff.mp hr))⟩
    obtain ⟨⟨⟨⟩, rest'⟩, hclosing, hxs⟩ := Option.map_eq_some_iff.mp hr
    obtain ⟨rfl, rfl⟩ := Prod.mk.inj hxs
    obtain ⟨u, qs, rfl, hclose, rfl, hu⟩ := hleft.1 _ _ hclosing
    refine ⟨t ++ u, ps ++ [], (List.append_assoc ..).symm, ?_, ?_⟩
    · rw [size_append, ← Nat.add_assoc]
      exact .seq hplus hclose
    · rw [Gives, List.append_nil, checked_append_of_right hu]
      exact hbuilds.merged

def QuotesBelow (options : Options) (k : Nat) : Prop :=
  ∀ n glyphs, glyphs.length < k → Scanned glyphs → QuoteAt options n glyphs

theorem closes_literal {closing : String} {wrapper : Wrapper} {c : Char} {cs : List Char}
    (hclosing : closing.toList = c :: cs) (hreserved : reservedChar ∉ closing.toList)
    (hc : Text.isWordChar c = false) : Closes ⟨wrapper, closing, false⟩ (literal closing) where
  reads n := by
    have hreader : Quote.closing ⟨wrapper, closing, false⟩ = Reader.literal closing := by
      refine ext_run fun glyphs => ?_
      rw [Quote.closing, run_bind]
      cases (Reader.literal closing).run glyphs <;> rfl
    rw [hreader]
    refine (Reads.literal hreserved).mono ?_
    rintro t ps _ ⟨rfl, rfl⟩
    exact ⟨rfl, numerals_spell _⟩
  opens := ⟨[c], (Opens.literal hclosing).bind, List.forall_mem_singleton.mpr hc⟩

theorem closes_constrained {mark : String} {wrapper : Wrapper} {c : Char} (hmark : mark.toList = [c])
    (hreserved : c ≠ reservedChar) (hc : Text.isWordChar c = false) :
    Closes ⟨wrapper, mark, true⟩ (sequence [literal mark, no wordChar]) where
  reads n := by
    refine skip (by simpa [hmark] using hreserved.symm) (.seq_empty ?_)
    refine (Reads.notAhead (.char isWordChar_reservedChar)).mono ?_
    rintro _ _ _ ⟨rfl, rfl⟩
    exact ⟨rfl, by rw [List.append_nil, numerals_spell]⟩
  opens := ⟨[c], (Opens.literal hmark).bind, List.forall_mem_singleton.mpr hc⟩

theorem readsAt_skip {α : Type} {text : String} {f : Expression} {r : Reader α}
    {R : List Glyph → List Tree → α → Prop} (h : reservedChar ∉ text.toList) (hne : text.toList ≠ [])
    (hg : Scanned glyphs)
    (hf : ∀ rest, rest.length < glyphs.length → Scanned rest →
      ReadsAt (n + size (spell text)) f r (fun u qs a => R (spell text ++ u) qs a) rest) :
    ReadsAt n (.seq (.literal text) f) (Reader.literal text >>= fun _ => r) R glyphs := by
  refine ReadsAt.bind (Reads.literal h _ hg) ?_
  rintro _ rest _ _ rfl ⟨rfl, rfl⟩
  refine hf rest ?_ (hg.suffix (List.suffix_append _ _))
  rw [List.length_append, spell, List.length_map]
  exact Nat.lt_add_of_pos_left (List.length_pos_iff.mpr hne)

theorem quotationMarks_facts (mark : QuoteMark) :
    reservedChar ∉ (quotationMarks mark).1.toList ∧ (quotationMarks mark).1.toList ≠ [] ∧
      reservedChar ∉ (quotationMarks mark).2.toList ∧
      ∃ c cs, (quotationMarks mark).2.toList = c :: cs ∧ Text.isWordChar c = false := by
  cases mark
  · exact ⟨by decide, by decide, by decide, '\x60', ['\x27'], rfl, by decide +kernel⟩
  · exact ⟨by decide, by decide, by decide, '\x60', ['"'], rfl, by decide +kernel⟩

theorem readsAt_quotation (mark : QuoteMark) (hg : Scanned glyphs)
    (hquotes : QuotesBelow options glyphs.length) :
    ReadsAt n (call (.quotation mark))
      (quotationOpening mark (quotationMarks mark).1 (quotationMarks mark).2 >>= enclose)
      (fun t ps x => t ≠ [] ∧ Builds options n t ps [x]) glyphs := by
  obtain ⟨hopen, hne, hclose, c, cs, hcs, hc⟩ := quotationMarks_facts mark
  have hcloses : Closes ⟨.quotation mark, (quotationMarks mark).2, false⟩
      (literal (quotationMarks mark).2) := closes_literal hcs hclose hc
  rw [quotationOpening, bind_assoc]
  refine .compound rfl (readsAt_skip hopen hne hg fun rest hshorter hrest => ?_)
  rw [pure_bind, enclose, bind_pure_comp]
  refine ((readsAt_enclosed hcloses hrest (fills hcloses hquotes hshorter hrest _)).mono ?_).map
  intro t ps xs hgives
  refine ⟨by simp [spell, hne], .of_build ?_⟩
  rw [build, checked_append_of_left (numerals_spell _)]
  exact (hgives.bind fun content => pure [Element.quotation mark content]).trans
    (checked_bind_pure _ t xs)

def BodyPair (options : Options) (roles : Option (List String)) (n : Nat) (t : List Glyph)
    (ps : List Tree) (x : Element) : Prop :=
  t ≠ [] ∧ ∃ p style content, ps = [p] ∧ p.name ≠ .roles ∧
    x = (Wrapper.quoted style roles).wrap content ∧
    quotedBodyOf options p = checked n t (style, content)

theorem markInfo (m : Mark) : (String.singleton m.char).toList = [m.char] ∧
    doubled m = String.singleton m.char ++ String.singleton m.char ∧ m.char ≠ reservedChar ∧
    Text.isWordChar m.char = false := by
  cases m
  all_goals exact ⟨rfl, rfl, by decide, by decide +kernel⟩

theorem readsAt_unconstrained (roles : Option (List String)) (m : Mark) (hg : Scanned glyphs)
    (hquotes : QuotesBelow options glyphs.length) :
    ReadsAt n (call (.unconstrained m))
      (unconstrained roles m.style (String.singleton m.char) >>= enclose)
      (BodyPair options roles n) glyphs := by
  obtain ⟨hmark, hdoubled, hreserved, hc⟩ := markInfo m
  have htext : (doubled m).toList = [m.char, m.char] := String.toList_ofList
  have hplain : reservedChar ∉ (doubled m).toList := by simpa [htext] using hreserved.symm
  have hcloses : Closes ⟨.quoted m.style roles, doubled m, false⟩ (literal (doubled m)) :=
    closes_literal htext hplain hc
  rw [unconstrained, bind_assoc, ← hdoubled]
  refine .compound rfl (readsAt_skip hplain (by simp [htext]) hg fun rest hshorter hrest => ?_)
  rw [pure_bind, enclose, bind_pure_comp]
  refine ((readsAt_enclosed hcloses hrest (fills hcloses hquotes hshorter hrest _)).mono ?_).map
  intro t ps xs hgives
  refine ⟨by simp [spell, htext], _, m.style, xs, rfl, by rintro ⟨⟩, rfl, ?_⟩
  rw [quotedBodyOf, checked_append_of_left (numerals_spell _)]
  exact (hgives.bind fun content => pure (m.style, content)).trans (checked_bind_pure _ t xs)

theorem readsAt_constrained (roles : Option (List String)) (m : Mark) (hg : Scanned glyphs)
    (hquotes : QuotesBelow options glyphs.length) :
    ReadsAt n (call (.constrained m))
      (constrained roles m.style (String.singleton m.char) m.char >>= enclose)
      (BodyPair options roles n) glyphs := by
  obtain ⟨hmark, -, hreserved, hc⟩ := markInfo m
  have hplain : reservedChar ∉ (String.singleton m.char).toList := by simpa [hmark] using hreserved.symm
  have hcloses : Closes ⟨.quoted m.style roles, String.singleton m.char, true⟩ (constrainedEnd m) :=
    closes_constrained hmark hreserved hc
  have hopen : Tests (choose [blank, mark m.char])
      (headIs fun d => Text.isBlank d || d == m.char) :=
    (tests_choose (.cons (.char (by decide)) (.cons (.mark m.char hmark hreserved) .nil))).congr
      fun glyphs => by simp [← headIs_or]
  rw [constrained, bind_assoc]
  refine .compound rfl (readsAt_skip hplain (by simp [hmark]) hg fun rest hshorter hrest => ?_)
  rw [bind_assoc]
  refine ReadsAt.bind (Reads.notAhead hopen _ hrest) ?_
  rintro _ rest _ _ rfl ⟨rfl, rfl⟩
  rw [pure_bind, enclose, bind_pure_comp]
  refine ((readsAt_enclosed hcloses hrest (fills hcloses hquotes hshorter hrest _)).mono ?_).map
  intro t ps xs hgives
  refine ⟨by simp [spell, hmark], _, m.style, xs, rfl, by rintro ⟨⟩, rfl, ?_⟩
  rw [quotedBodyOf, List.nil_append, List.nil_append, checked_append_of_left (numerals_spell _)]
  exact (hgives.bind fun content => pure (m.style, content)).trans (checked_bind_pure _ t xs)

theorem reads_script (roles : Option (List String)) (s : Script) :
    Reads n (call (.script s)) (script s.style (String.singleton s.char) s.char) fun t ps found =>
      BodyPair options roles n t ps ((Wrapper.quoted found.1 roles).wrap [.text found.2]) := by
  have hmark : (String.singleton s.char).toList = [s.char] := String.toList_singleton _
  have hreserved : s.char ≠ reservedChar := by cases s <;> decide
  have hplain : reservedChar ∉ (String.singleton s.char).toList := by simpa [hmark] using hreserved.symm
  have hend : Tests (choose [mark s.char, blank, reserved]) fun glyphs =>
      atReserved glyphs || headIs (fun d => d == s.char || Text.isBlank d) glyphs :=
    (tests_heads (.cons (.mark s.char hmark hreserved) (.cons (.char (by decide)) .nil))).congr
      fun _ => by simp
  refine .compound rfl (skip hplain (Reads.bind (reads_plus rfl hend fun _ _ => rfl) ?_))
  rintro t _ _ ⟨⟨rfl, rfl, ht⟩, -⟩
  refine skip hplain (.pure ⟨by simp [spell, hmark], _, s.style, [.text (textOf t)], rfl, nofun, rfl, ?_⟩)
  rw [quotedBodyOf, checked_of_tokenless (by simp [ht])]
  rfl

theorem tests_quoteStart : Tests quoteStart (headIs isMark) := by
  refine (tests_choose (.cons (.mark '*' rfl (by decide)) (.cons (.mark '_' rfl (by decide))
    (.cons (.mark '\x60' rfl (by decide)) (.cons (.mark '#' rfl (by decide))
      (.cons (.mark '~' rfl (by decide)) (.cons (.mark '^' rfl (by decide)) .nil))))))).congr
        fun glyphs => ?_
  have hmark : isMark = isIntrawordMark := rfl
  simp only [List.any_cons, List.any_nil, headIs_or, Bool.or_false, hmark, funext isIntrawordMark_eq]
  congr 1
  funext c
  ac_rfl

theorem reads_role : Reads n (call .role) role fun t ps name =>
    t ≠ [] ∧ numerals t = [] ∧ ps.map Pair.string = [name] := by
  refine .map ((reads_chars rfl isRoleChar_reservedChar).mono ?_)
  rintro t _ _ ⟨⟨rfl, rfl, ht⟩, hne⟩
  exact ⟨hne, ht, rfl⟩

theorem strings_of_repeated {t : List Glyph} {ps : List Tree} {names : List String}
    (h : Repeated (fun _ t ps name => t ≠ [] ∧ numerals t = [] ∧ ps.map Pair.string = [name])
      n t ps names) : numerals t = [] ∧ ps.map Pair.string = names := by
  induction h with
  | nil => exact ⟨rfl, rfl⟩
  | cons hfirst _ ih =>
    obtain ⟨-, ht, hps⟩ := hfirst
    rw [numerals_append, List.map_append, ht, hps, ih.1, ih.2]
    exact ⟨rfl, rfl⟩

theorem reads_roles : Reads n (call .roles) Quote.roles fun t ps names => numerals t = [] ∧
    ∃ text inner, ps = [.node .roles n text inner] ∧ inner.map Pair.string = names := by
  have hdot : Reads (n + size (spell "[")) (optional (literal ".")) (Reader.optional (Reader.literal "."))
      fun t ps _ => numerals t = [] ∧ ps = [] := by
    refine .optional ((Reads.literal (by decide)).mono ?_) ⟨rfl, rfl⟩
    rintro _ _ _ ⟨rfl, rfl⟩
    exact ⟨rfl, rfl⟩
  have hfurther (n : Nat) : Reads n (seq (literal ".") (call .role)) (do Reader.literal "."; role)
      fun t ps name => t ≠ [] ∧ numerals t = [] ∧ ps.map Pair.string = [name] := by
    refine skip (by decide) (reads_role.mono fun t ps name ⟨_, ht, hps⟩ => ?_)
    exact ⟨List.cons_ne_nil _ _, by rw [numerals_append, ht, numerals_spell]; rfl, hps⟩
  refine .compound rfl (skip (by decide) (Reads.bind hdot ?_))
  rintro d _ _ ⟨hd, rfl⟩
  refine Reads.bind reads_role fun t ps first ⟨_, ht, hps⟩ => ?_
  refine Reads.bind (Reads.many hfurther (fun _ _ _ _ h => h.1) _) fun u qs others hu => ?_
  obtain ⟨hu, hqs⟩ := strings_of_repeated hu
  refine skip (by decide) (Reads.bind (.ahead tests_quoteStart) ?_)
  rintro _ _ _ ⟨rfl, rfl⟩
  refine .pure ⟨by simp [hd, ht, hu], _, _, rfl, ?_⟩
  simp [hps, hqs]

theorem reads_escapedMark : ReadsElement options n (call .escapedQuote) escapedMark := by
  have hmarks : ∀ mark ∈ escapable, reservedChar ∉ mark.toList := by decide
  refine .atomic rfl (skip (by decide) (Reads.map (g := Element.text)
    (reads_literals escapable (f := id) hmarks fun mark hmark => ?_)))
  refine ⟨List.cons_ne_nil _ _, .plain (by simp) ?_⟩
  rw [build, List.flatMap_append, flatMap_chars_spell, flatMap_chars_spell]
  exact congrArg (fun text => Except.ok [Element.text text]) String.ofList_toList

theorem QuotesBelow.mono {k l : Nat} (h : QuotesBelow options k) (hkl : l ≤ k) :
    QuotesBelow options l :=
  fun n glyphs hlt hg => h n glyphs (Nat.lt_of_lt_of_le hlt hkl) hg

theorem readsAt_styled (roles : Option (List String)) (hg : Scanned glyphs)
    (hquotes : QuotesBelow options glyphs.length) :
    ReadsAt n (choose quotedBody) (styled roles) (BodyPair options roles n) glyphs := by
  have hscripts : Reads n (choose [call (.script .sub), call (.script .super)]) (scripts roles)
      (BodyPair options roles n) :=
    Reads.map (g := fun found : Style × String => (Wrapper.quoted found.1 roles).wrap [.text found.2])
      ((reads_script roles .sub).orElse (reads_script roles .super).choice_fail)
  refine .choose_append (.choose_append (.firstOf ?_) (.firstOf ?_)) (hscripts glyphs hg)
  · exact .cons (readsAt_unconstrained roles .star hg hquotes)
      (.cons (readsAt_unconstrained roles .underscore hg hquotes)
        (.cons (readsAt_unconstrained roles .backtick hg hquotes)
          (.cons (readsAt_unconstrained roles .hash hg hquotes) .nil)))
  · exact .cons (readsAt_constrained roles .star hg hquotes)
      (.cons (readsAt_constrained roles .underscore hg hquotes)
        (.cons (readsAt_constrained roles .backtick hg hquotes)
          (.cons (readsAt_constrained roles .hash hg hquotes) .nil)))

theorem quotedTextOf_body {p : Tree} (hp : p.name ≠ .roles)
    (found : Attributes × Option (Except Failure (Style × List Element))) :
    quotedTextOf options found [p] = (found.1, some (quotedBodyOf options p)) := by
  obtain ⟨name, offset, text, inner⟩ := p
  rw [quotedTextOf]
  · rfl
  · exact hp

theorem reads_optionalRoles (options : Options) : Reads n (optional (call .roles))
    (Reader.optional Quote.roles) fun t ps roles => numerals t = [] ∧ ∀ p, p.name ≠ .roles →
      quotedTextOf options (∅, none) (ps ++ [p]) =
        (roleAttributes roles, some (quotedBodyOf options p)) := by
  refine .optional (reads_roles.mono ?_) ⟨rfl, fun p hp => quotedTextOf_body hp _⟩
  rintro t _ names ⟨ht, text, inner, rfl, rfl⟩
  refine ⟨ht, fun p hp => ?_⟩
  rw [List.singleton_append, quotedTextOf]
  exact quotedTextOf_body hp _

theorem readsAt_quotedText (hg : Scanned glyphs) (hquotes : QuotesBelow options glyphs.length) :
    ReadsAt n (call .quotedText) (Reader.optional Quote.roles >>= styled)
      (fun t ps x => t ≠ [] ∧ Builds options n t ps [x]) glyphs := by
  refine .compound rfl (ReadsAt.bind (reads_optionalRoles options _ hg) ?_)
  rintro t rest ps roles rfl ⟨ht, hroles⟩
  have hshorter : rest.length ≤ (t ++ rest).length := by
    rw [List.length_append]
    exact Nat.le_add_left ..
  refine (readsAt_styled roles (hg.suffix (List.suffix_append _ _)) (hquotes.mono hshorter)).mono ?_
  rintro u qs _ ⟨hne, p, style, content, rfl, hp, rfl, hbody⟩
  refine ⟨List.append_ne_nil_of_right_ne_nil _ hne, .of_build ?_⟩
  rw [build, hroles p hp, checked_append_of_left ht]
  dsimp only
  rw [hbody]
  exact checked_bind_pure
    (fun body : Style × List Element => [Element.quoted body.1 (roleAttributes roles) body.2]) u _

theorem reads_quote : ReadsElement options n (choose quoteChoice) quote := by
  intro glyphs hg
  change QuoteAt options n glyphs
  induction hl : glyphs.length using Nat.strongRecOn generalizing glyphs n with
  | ind l ih =>
    have hquotes : QuotesBelow options glyphs.length :=
      fun m rest hshorter hrest => ih _ (hl ▸ hshorter) rest hrest rfl
    rw [QuoteAt, quote_eq]
    refine .orElse (reads_escapedMark glyphs hg) (.orElse ?_ (readsAt_quotedText hg hquotes).choice_fail)
    exact .orElse (readsAt_quotation .double hg hquotes) (readsAt_quotation .single hg hquotes).choice_fail

end

end Peg

end Manuscript
