import Manuscript.Proofs.Grammar.Reading
import Manuscript.Proofs.Markup.Quote

namespace Manuscript

open Glyph Reader

namespace Reader

variable {α β : Type} {r s : Reader α} {f g : α → Reader β} {cs ds : List Char}

def Opens (r : Reader α) (cs : List Char) : Prop :=
  r.Yields fun t _ => ∃ c ∈ cs, ∃ u, t = .char c :: u

def Exclusive (r s : Reader α) : Prop :=
  ∀ glyphs, r.run glyphs = none ∨ s.run glyphs = none

namespace Opens

theorem literal {text : String} {c : Char} {rest : List Char} (h : text.toList = c :: rest) :
    (Reader.literal text).Opens [c] := by
  refine (Yields.literal text).mono fun t _ ht => ⟨c, List.mem_singleton_self c, rest.map .char, ?_⟩
  rw [ht, spell, h, List.map_cons]

theorem mono (h : r.Opens cs) (hcs : cs ⊆ ds) : r.Opens ds :=
  Yields.mono h fun _ _ ⟨c, hc, hu⟩ => ⟨c, hcs hc, hu⟩

theorem bind (h : r.Opens cs) : (r >>= f).Opens cs := by
  refine Yields.bind h fun t a ⟨c, hc, u, hu⟩ => (yields_true (f a)).mono fun v _ _ => ?_
  exact ⟨c, hc, u ++ v, by rw [hu, List.cons_append]⟩

theorem orElse (hr : r.Opens cs) (hs : s.Opens ds) : (orElse r s).Opens (cs ++ ds) :=
  Yields.orElse (hr.mono (List.subset_append_left cs ds)) (hs.mono (List.subset_append_right cs ds))

theorem firstOf {readers : List (Reader α)} (h : ∀ r ∈ readers, r.Opens cs) :
    (firstOf readers).Opens cs :=
  Yields.firstOf h

theorem optional_bind {f : Option α → Reader β} (hr : r.Opens cs) (hf : ∀ a, (f a).Opens ds) :
    (Reader.optional r >>= f).Opens (cs ++ ds) := by
  have hoption : (Reader.optional r).Yields fun t _ => t = [] ∨ ∃ c ∈ cs, ∃ u, t = .char c :: u :=
    .optional (Yields.mono hr fun _ _ => .inr) (.inl rfl)
  refine hoption.bind fun t a ht => ?_
  rcases ht with rfl | ⟨c, hc, u, rfl⟩
  · exact (hf a).mono (List.subset_append_right cs ds)
  · refine (yields_true (f a)).mono fun v _ _ => ?_
    exact ⟨c, List.mem_append_left ds hc, u ++ v, List.cons_append⟩

theorem exists_char {glyphs rest : List Glyph} {a : α} (h : r.Opens cs)
    (hr : r.run glyphs = some (a, rest)) : ∃ c ∈ cs, ∃ left, glyphs = .char c :: left := by
  obtain ⟨_, rfl, c, hc, u, rfl⟩ := h glyphs a rest hr
  exact ⟨c, hc, u ++ rest, List.cons_append⟩

theorem run_eq_none (h : r.Opens cs) {c : Char} (hc : c ∉ cs) (rest : List Glyph) :
    r.run (.char c :: rest) = none := by
  refine Option.eq_none_iff_forall_ne_some.mpr fun found hfound => hc ?_
  obtain ⟨d, hd, left, he⟩ := h.exists_char hfound
  exact Glyph.char.inj (List.cons.inj he).1 ▸ hd

theorem length_lt {glyphs rest : List Glyph} {a : α} (h : r.Opens cs)
    (hr : r.run glyphs = some (a, rest)) : rest.length < glyphs.length := by
  obtain ⟨_, rfl, c, hc, u, rfl⟩ := h glyphs a rest hr
  rw [List.length_append]
  exact Nat.lt_add_of_pos_left (Nat.succ_pos _)

theorem take?_eq_none (h : r.Opens cs) {glyphs : List Glyph} (ht : r.take? glyphs = none) :
    r.run glyphs = none :=
  Option.eq_none_iff_forall_ne_some.mpr fun ⟨a, rest⟩ hr =>
    take?_eq_none_iff.mp ht a rest hr (h.length_lt hr)

theorem exclusive (hr : r.Opens cs) (hs : s.Opens ds) (h : ∀ c ∈ cs, c ∉ ds) : Exclusive r s := by
  intro glyphs
  cases hrun : r.run glyphs with
  | none => exact .inl rfl
  | some found =>
    refine .inr (Option.eq_none_iff_forall_ne_some.mpr fun other hother => ?_)
    obtain ⟨c, hc, left, rfl⟩ := hr.exists_char hrun
    obtain ⟨d, hd, left', he⟩ := hs.exists_char hother
    obtain rfl := Glyph.char.inj (List.cons.inj he).1
    exact h c hc hd

end Opens

def Needs (r : Reader α) (cs : List Char) : Prop :=
  r.Yields fun t _ => ∃ c ∈ cs, .char c ∈ t

theorem Opens.needs (h : r.Opens cs) (hcs : cs ⊆ ds) : r.Needs ds :=
  Yields.mono h fun _ _ ⟨c, hc, _, hu⟩ => ⟨c, hcs hc, hu ▸ List.mem_cons_self⟩

namespace Needs

theorem literal {text : String} {c : Char} (hc : c ∈ cs) (htext : c ∈ text.toList) :
    (Reader.literal text).Needs cs :=
  (Yields.literal text).mono fun _ _ ht => ⟨c, hc, ht ▸ List.mem_map_of_mem htext⟩

theorem bind (h : r.Needs cs) : (r >>= f).Needs cs :=
  Yields.bind h fun _ _ ⟨c, hc, hmem⟩ => (yields_true _).mono fun _ _ _ =>
    ⟨c, hc, List.mem_append_left _ hmem⟩

theorem firstOf {readers : List (Reader α)} (h : ∀ r ∈ readers, r.Needs cs) :
    (firstOf readers).Needs cs :=
  Yields.firstOf h

theorem run_eq_none (h : r.Needs cs) {glyphs : List Glyph}
    (hno : ∀ c, .char c ∈ glyphs → c ∉ cs) : r.run glyphs = none := by
  refine Option.eq_none_iff_forall_ne_some.mpr fun ⟨a, rest⟩ hrun => ?_
  obtain ⟨t, rfl, c, hc, hmem⟩ := h glyphs a rest hrun
  exact hno c (List.mem_append_left rest hmem) hc

end Needs

namespace Exclusive

theorem symm (h : Exclusive r s) : Exclusive s r :=
  fun glyphs => (h glyphs).symm

theorem firstOf {readers : List (Reader α)} (h : ∀ s ∈ readers, Exclusive r s) :
    Exclusive r (firstOf readers) := by
  intro glyphs
  refine Classical.or_iff_not_imp_left.mpr fun hr => ?_
  induction readers with
  | nil => rfl
  | cons s readers ih =>
    obtain ⟨hs, hrest⟩ := List.forall_mem_cons.mp h
    rw [run_firstOf_cons, (hs glyphs).resolve_left hr, ih hrest, Option.none_or]

theorem run_firstOf {readers : List (Reader α)} (h : readers.Pairwise Exclusive) (hr : r ∈ readers)
    {glyphs : List Glyph} {found : α × List Glyph} (hrun : r.run glyphs = some found) :
    (Reader.firstOf readers).run glyphs = some found := by
  induction h with
  | nil => cases hr
  | @cons first rest hfirst _ ih =>
    rw [run_firstOf_cons]
    rcases List.mem_cons.mp hr with rfl | hr
    · rw [hrun, Option.some_or]
    · have hnone : first.run glyphs = none :=
        (hfirst r hr glyphs).resolve_right fun hr => by rw [hr] at hrun; cases hrun
      rw [hnone, Option.none_or, ih hr]

theorem orElse_comm (h : Exclusive r s) : orElse r s = orElse s r := by
  refine ext_run fun glyphs => ?_
  rw [run_orElse, run_orElse]
  rcases h glyphs with h | h
  · rw [h, Option.none_or, Option.or_none]
  · rw [h, Option.none_or, Option.or_none]

theorem orElse_bind (h : Exclusive r s) : orElse r s >>= f = orElse (r >>= f) (s >>= f) := by
  refine ext_run fun glyphs => ?_
  rw [run_bind, run_orElse, run_orElse, run_bind, run_bind]
  rcases h glyphs with h | h
  · rw [h, Option.none_or, Option.bind_none, Option.none_or]
  · rw [h, Option.or_none, Option.bind_none, Option.or_none]

end Exclusive

theorem orElse_assoc (r s t : Reader α) : orElse (orElse r s) t = orElse r (orElse s t) :=
  ext_run fun _ => Option.or_assoc

theorem orElse_bind_bind : orElse (r >>= f) (r >>= g) = r >>= fun a => orElse (f a) (g a) := by
  refine ext_run fun glyphs => ?_
  rw [run_orElse, run_bind, run_bind, run_bind]
  cases r.run glyphs <;> rfl

theorem firstOf_bind {readers : List (Reader α)} (h : readers.Pairwise Exclusive) :
    firstOf readers >>= f = firstOf (readers.map (· >>= f)) := by
  induction h with
  | nil => exact ext_run fun _ => rfl
  | cons hr _ ih => exact (Exclusive.firstOf hr).orElse_bind.trans (congrArg _ ih)

end Reader

namespace Quote

variable {roles : Option (List String)} {o : Opening}

def enclosed (o : Opening) : Reader (List Element) := do
  let xs ← ofTake (content? o)
  if xs.isEmpty then fail else return merge xs

def enclose (o : Opening) : Reader Element := do
  return o.wrapper.wrap (← enclosed o)

def quotation : Reader Element :=
  orElse (quotationOpening .double "\"`" "`\"" >>= enclose)
    (quotationOpening .single "'`" "`'" >>= enclose)

def styleOpening (roles : Option (List String)) : Reader Opening :=
  orElse (firstOf (marks.map fun (style, mark, _) => unconstrained roles style mark))
    (firstOf (marks.map fun (style, mark, c) => constrained roles style mark c))

def scripts (roles : Option (List String)) : Reader Element := do
  let (style, text) ← orElse (script .subscript "~" '~') (script .superscript "^" '^')
  return (Wrapper.quoted style roles).wrap [.text text]

def styled (roles : Option (List String)) : Reader Element :=
  orElse
    (orElse (firstOf (marks.map fun (style, mark, _) => unconstrained roles style mark >>= enclose))
      (firstOf (marks.map fun (style, mark, c) => constrained roles style mark c >>= enclose)))
    (scripts roles)

theorem opens_escapedMark : escapedMark.Opens ['\\'] := (Opens.literal rfl).bind

theorem opens_roles : Quote.roles.Opens ['['] := (Opens.literal rfl).bind

theorem opens_scripts : (scripts roles).Opens ['~', '^'] :=
  ((Opens.literal rfl).bind.orElse (Opens.literal rfl).bind).bind

theorem opens_scriptText : scriptText.Opens ['[', '~', '^'] :=
  opens_roles.optional_bind fun _ => opens_scripts

theorem opens_quotationOpening {mark : QuoteMark} {text closing : String} {c : Char} {cs : List Char}
    (h : text.toList = c :: cs) : (quotationOpening mark text closing).Opens [c] :=
  (Opens.literal h).bind

theorem opens_unconstrained {style : Style} {mark : String} {c : Char} (h : mark.toList = [c]) :
    (unconstrained roles style mark).Opens [c] := by
  have hmarks : (mark ++ mark).toList = [c, c] := by rw [String.toList_append, h]; rfl
  exact (Opens.literal hmarks).bind

theorem opens_constrained {style : Style} {mark : String} {c d : Char} (h : mark.toList = [c]) :
    (constrained roles style mark d).Opens [c] := (Opens.literal h).bind

theorem opens_styleOpening : (styleOpening roles).Opens ['*', '_', '\x60', '#'] := by
  have hmarks : ∀ entry ∈ marks, entry.2.1.toList = [entry.2.2] ∧
      [entry.2.2] ⊆ ['*', '_', '\x60', '#'] := by decide
  refine .mono (.orElse (.firstOf ?_) (.firstOf ?_)) (List.append_subset.mpr ⟨.refl _, .refl _⟩)
  · refine List.forall_mem_map.mpr fun entry hentry => ?_
    obtain ⟨hmark, hmem⟩ := hmarks entry hentry
    exact (opens_unconstrained hmark).mono hmem
  · refine List.forall_mem_map.mpr fun entry hentry => ?_
    obtain ⟨hmark, hmem⟩ := hmarks entry hentry
    exact (opens_constrained hmark).mono hmem

theorem opens_opening : opening.Opens ['"', '\x27', '[', '*', '_', '\x60', '#'] := by
  have htext : textOpening.Opens ['[', '*', '_', '\x60', '#'] :=
    opens_roles.optional_bind fun _ => opens_styleOpening
  refine .firstOf fun r hr => ?_
  simp only [List.mem_cons, List.not_mem_nil, or_false] at hr
  rcases hr with rfl | rfl | rfl
  · exact (opens_quotationOpening rfl).mono (by decide)
  · exact (opens_quotationOpening rfl).mono (by decide)
  · exact htext.mono (by decide)

theorem opens_leaf : leaf.Opens ['\\', '[', '~', '^'] :=
  opens_escapedMark.orElse opens_scriptText

theorem quote_eq_leaf : quote = orElse leaf (opening >>= enclose) := by
  refine ext_run fun glyphs => ?_
  rw [run_orElse, run_bind]
  change (read? glyphs).map _ = _
  rw [read?]
  cases hleaf : leaf.take? glyphs with
  | some found =>
    obtain ⟨x, rest⟩ := found
    rw [take?_eq_some_iff.mp hleaf]
    rfl
  | none =>
    rw [opens_leaf.take?_eq_none hleaf, Option.none_or]
    cases hopen : opening.take? glyphs with
    | none => rw [opens_opening.take?_eq_none hopen]; rfl
    | some found =>
      obtain ⟨o, inner⟩ := found
      rw [take?_eq_some_iff.mp hopen]
      dsimp only
      change _ = (((content? o inner.left).map _).bind _).bind _
      rcases content? o inner.left with _ | ⟨_ | ⟨x, xs⟩, rest⟩
      · rfl
      · rfl
      · rfl

theorem exclusive_mark {style style' : Style} {mark : String} {c : Char} (h : mark.toList = [c]) :
    Exclusive (constrained roles style mark c) (unconstrained roles style' mark) := by
  intro glyphs
  rw [constrained, unconstrained, literal_append, bind_assoc, run_bind, run_bind]
  rcases (literal mark).run glyphs with _ | ⟨⟨⟩, rest⟩
  · exact .inl rfl
  · rw [Option.bind_some, Option.bind_some, run_bind, run_bind, run_ahead]
    cases hstart : startsWith mark.toList rest with
    | false => exact .inr (by rw [run_literal_of_not hstart]; rfl)
    | true =>
      refine .inl ?_
      rw [h, startsWith_singleton] at hstart
      obtain ⟨d, left, rfl, hd⟩ := char_of_headIs hstart
      have hsame : headIs (fun d => Text.isBlank d || d == c) (.char d :: left) = true := by
        obtain rfl : c = d := beq_iff_eq.mp hd
        simp [headIs]
      rw [hsame]
      rfl

theorem exclusive_marks {roles : Option (List String)} :
    Exclusive (firstOf (marks.map fun (style, mark, _) => unconstrained roles style mark))
      (firstOf (marks.map fun (style, mark, c) => constrained roles style mark c)) := by
  have hmarks : ∀ entry ∈ marks, entry.2.1.toList = [entry.2.2] := by decide
  refine .firstOf (List.forall_mem_map.mpr fun entry hentry => .symm (.firstOf ?_))
  refine List.forall_mem_map.mpr fun other hother => ?_
  have hopen := hmarks entry hentry
  have hopen' := hmarks other hother
  by_cases hc : entry.2.2 = other.2.2
  · have hmark : entry.2.1 = other.2.1 := String.toList_inj.mp (by rw [hopen, hopen', hc])
    change Exclusive (constrained roles entry.1 entry.2.1 entry.2.2)
      (unconstrained roles other.1 other.2.1)
    rw [hmark, hc]
    exact exclusive_mark hopen'
  · exact (opens_constrained hopen).exclusive (opens_unconstrained hopen') (by simpa using hc)

theorem textOpening_bind :
    textOpening >>= enclose = Reader.optional Quote.roles >>= fun roles => styleOpening roles >>= enclose :=
  bind_assoc ..

theorem pairwise_marks {α : Type} {f : Style × String × Char → Reader α}
    (h : ∀ entry ∈ marks, (f entry).Opens [entry.2.2]) : (marks.map f).Pairwise Exclusive := by
  have hdistinct : marks.Pairwise fun entry other => entry.2.2 ≠ other.2.2 := by decide
  refine List.pairwise_map.mpr (hdistinct.imp_of_mem fun hentry hother hc => ?_)
  exact (h _ hentry).exclusive (h _ hother) (by simpa using hc)

theorem toList_of_mem_marks {style : Style} {mark : String} {c : Char}
    (h : (style, mark, c) ∈ marks) : mark.toList = [c] := by
  have hmarks : ∀ entry ∈ marks, entry.2.1.toList = [entry.2.2] := by decide
  exact hmarks _ h

theorem pairwise_constrained (roles : Option (List String)) :
    (marks.map fun (style, mark, c) => constrained roles style mark c).Pairwise Exclusive :=
  pairwise_marks fun _ h => opens_constrained (toList_of_mem_marks h)

theorem run_styleOpening {style : Style} {mark : String} {c : Char} (h : (style, mark, c) ∈ marks)
    {glyphs : List Glyph} {found : Opening × List Glyph}
    (hrun : (constrained roles style mark c).run glyphs = some found) :
    (styleOpening roles).run glyphs = some found := by
  have hsingle : (firstOf (marks.map fun (style, mark, c) => constrained roles style mark c)).run
      glyphs = some found :=
    Exclusive.run_firstOf (pairwise_constrained roles) (List.mem_map.mpr ⟨_, h, rfl⟩) hrun
  have hdoubled : (firstOf (marks.map fun (style, mark, _) => unconstrained roles style mark)).run
      glyphs = none :=
    (exclusive_marks glyphs).resolve_right fun hno => by rw [hsingle] at hno; cases hno
  rw [styleOpening, run_orElse, hdoubled, Option.none_or, hsingle]

theorem styleOpening_bind (roles : Option (List String)) :
    styleOpening roles >>= enclose = orElse
      (firstOf (marks.map fun (style, mark, _) => unconstrained roles style mark >>= enclose))
      (firstOf (marks.map fun (style, mark, c) => constrained roles style mark c >>= enclose)) := by
  have hunconstrained : (marks.map fun (style, mark, _) => unconstrained roles style mark).Pairwise
      Exclusive := pairwise_marks fun _ h => opens_unconstrained (toList_of_mem_marks h)
  rw [styleOpening, exclusive_marks.orElse_bind, firstOf_bind hunconstrained,
    firstOf_bind (pairwise_constrained roles), List.map_map, List.map_map]
  rfl

theorem opening_bind : opening >>= enclose =
    orElse quotation (Reader.optional Quote.roles >>= fun roles => styleOpening roles >>= enclose) := by
  have htext : textOpening.Opens ['[', '*', '_', '\x60', '#'] :=
    opens_roles.optional_bind fun _ => opens_styleOpening
  have hpairwise : [quotationOpening .double "\"`" "`\"", quotationOpening .single "'`" "`'",
      textOpening].Pairwise Exclusive := by
    refine .cons (List.forall_mem_cons.mpr ⟨?_, List.forall_mem_singleton.mpr ?_⟩)
      (.cons (List.forall_mem_singleton.mpr ?_) (List.pairwise_singleton _ _))
    · exact (opens_quotationOpening rfl).exclusive (opens_quotationOpening rfl) (by decide)
    · exact (opens_quotationOpening rfl).exclusive htext (by decide)
    · exact (opens_quotationOpening rfl).exclusive htext (by decide)
  rw [opening, firstOf_bind hpairwise, ← textOpening_bind, quotation, Reader.orElse_assoc]
  exact congrArg _ (congrArg _ (ext_run fun _ => Option.or_none))

theorem quote_eq : quote =
    orElse escapedMark (orElse quotation (Reader.optional Quote.roles >>= styled)) := by
  have hquotation : quotation.Opens ['"', '\x27'] :=
    (opens_quotationOpening rfl).bind.orElse (opens_quotationOpening rfl).bind
  have hcomm (roles : Option (List String)) : Exclusive (scripts roles) (styleOpening roles >>= enclose) :=
    opens_scripts.exclusive opens_styleOpening.bind (by decide)
  calc quote
    _ = orElse (orElse escapedMark scriptText) (opening >>= enclose) := quote_eq_leaf
    _ = orElse escapedMark (orElse (orElse scriptText quotation)
          (Reader.optional Quote.roles >>= fun roles => styleOpening roles >>= enclose)) := by
        rw [opening_bind, Reader.orElse_assoc, Reader.orElse_assoc]
    _ = orElse escapedMark (orElse quotation (orElse (Reader.optional Quote.roles >>= scripts)
          (Reader.optional Quote.roles >>= fun roles => styleOpening roles >>= enclose))) := by
        rw [(opens_scriptText.exclusive hquotation (by decide)).orElse_comm,
          Reader.orElse_assoc]
        rfl
    _ = orElse escapedMark (orElse quotation (Reader.optional Quote.roles >>= styled)) := by
        rw [orElse_bind_bind]
        refine congrArg _ (congrArg _ (congrArg _ (funext fun roles => ?_)))
        rw [(hcomm roles).orElse_comm, styleOpening_bind, styled]

end Quote

end Manuscript
