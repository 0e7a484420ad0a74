import Manuscript.Markup.Reader

namespace Manuscript

namespace Glyph

def spell (s : String) : List Glyph := s.toList.map .char

def Plain (glyphs : List Glyph) : Prop :=
  ∀ g ∈ glyphs, ∃ c, g = .char c ∧ c ≠ reservedChar

theorem plain_nil : Plain [] := fun _ h => absurd h List.not_mem_nil

theorem plain_append {t u : List Glyph} : Plain (t ++ u) ↔ Plain t ∧ Plain u :=
  List.forall_mem_append

theorem plain_cons {g : Glyph} {t : List Glyph} :
    Plain (g :: t) ↔ (∃ c, g = .char c ∧ c ≠ reservedChar) ∧ Plain t :=
  List.forall_mem_cons

theorem plain_map_char {cs : List Char} : Plain (cs.map .char) ↔ reservedChar ∉ cs := by
  constructor
  · intro h hc
    obtain ⟨c, he, hne⟩ := h (.char reservedChar) (List.mem_map_of_mem hc)
    exact hne (Glyph.char.inj he).symm
  · intro h g hg
    obtain ⟨c, hc, rfl⟩ := List.mem_map.mp hg
    exact ⟨c, rfl, fun he => h (he ▸ hc)⟩

theorem exists_chars_of_plain {t : List Glyph} (h : Plain t) :
    ∃ cs : List Char, t = cs.map .char ∧ reservedChar ∉ cs := by
  induction t with
  | nil => exact ⟨[], rfl, List.not_mem_nil⟩
  | cons g t ih =>
    obtain ⟨⟨c, rfl, hc⟩, ht⟩ := plain_cons.mp h
    obtain ⟨cs, rfl, hcs⟩ := ih ht
    refine ⟨c :: cs, rfl, fun hm => ?_⟩
    rcases List.mem_cons.mp hm with he | hm
    · exact hc he.symm
    · exact hcs hm

theorem flatMap_chars_map_char (cs : List Char) : (cs.map .char).flatMap chars = cs := by
  induction cs with
  | nil => rfl
  | cons c cs ih => rw [List.map_cons, List.flatMap_cons, ih, chars, List.singleton_append]

theorem flatMap_chars_spell (s : String) : (spell s).flatMap chars = s.toList :=
  flatMap_chars_map_char s.toList

theorem spell_of_startsWith {cs : List Char} {glyphs : List Glyph} (h : startsWith cs glyphs) :
    glyphs = cs.map .char ++ glyphs.drop cs.length := by
  fun_induction startsWith cs glyphs with
  | case1 => rfl
  | case2 c cs d rest ih =>
    obtain ⟨hc, hrest⟩ := Bool.and_eq_true_iff.mp h
    rw [beq_iff_eq] at hc
    subst hc
    simpa using ih hrest
  | case3 => cases h

theorem startsWith_singleton (c : Char) (glyphs : List Glyph) :
    startsWith [c] glyphs = headIs (c == ·) glyphs := by
  rcases glyphs with _ | ⟨d | digits, rest⟩ <;> simp [startsWith, headIs]

theorem headIs_or (p q : Char → Bool) (glyphs : List Glyph) :
    (headIs p glyphs || headIs q glyphs) = headIs (fun c => p c || q c) glyphs := by
  rcases glyphs with _ | ⟨d | digits, rest⟩ <;> simp [headIs]

theorem startsWith_append (cs ds : List Char) (glyphs : List Glyph) :
    startsWith (cs ++ ds) glyphs =
      (startsWith cs glyphs && startsWith ds (glyphs.drop cs.length)) := by
  fun_induction startsWith cs glyphs with
  | case1 => rfl
  | case2 c cs d rest ih => rw [List.cons_append, startsWith, ih, Bool.and_assoc]; rfl
  | case3 c cs glyphs hno =>
    rw [List.cons_append, startsWith.eq_3 _ _ _ fun d rest => hno d rest]
    rfl

theorem char_of_headIs {p : Char → Bool} {glyphs : List Glyph} (h : headIs p glyphs) :
    ∃ c rest, glyphs = .char c :: rest ∧ p c := by
  cases glyphs with
  | nil => cases h
  | cons g rest =>
    cases g with
    | char c => exact ⟨c, rest, rfl, h⟩
    | token => cases h

end Glyph

namespace Reader

open Glyph

variable {α β : Type} {r s : Reader α} {P Q : List Glyph → α → Prop}

def Yields (r : Reader α) (Q : List Glyph → α → Prop) : Prop :=
  ∀ glyphs a rest, r.run glyphs = some (a, rest) → ∃ taken, glyphs = taken ++ rest ∧ Q taken a

inductive Repeats (Q : List Glyph → α → Prop) : List Glyph → List α → Prop
  | nil : Repeats Q [] []
  | cons {t u : List Glyph} {a : α} {as : List α} :
      Q t a → Repeats Q u as → Repeats Q (t ++ u) (a :: as)

namespace Repeats

theorem mono {t : List Glyph} {as : List α} (h : Repeats P t as) (hPQ : ∀ t a, P t a → Q t a) :
    Repeats Q t as := by
  induction h with
  | nil => exact .nil
  | cons ha _ ih => exact .cons (hPQ _ _ ha) ih

theorem append {t u : List Glyph} {as bs : List α} (ht : Repeats Q t as) (hu : Repeats Q u bs) :
    Repeats Q (t ++ u) (as ++ bs) := by
  induction ht with
  | nil => exact hu
  | cons ha _ ih =>
    rw [List.append_assoc]
    exact .cons ha ih

theorem singleton {t : List Glyph} {a : α} (h : Q t a) : Repeats Q t [a] := by
  have hone : Repeats Q (t ++ []) [a] := .cons h .nil
  rwa [List.append_nil] at hone

end Repeats

def Guarded (stop : List Glyph → Bool) : Prop :=
  ∀ glyphs, atReserved glyphs → stop glyphs

theorem plain_of_guarded {stop : List Glyph → Bool} (h : Guarded stop) {g : Glyph}
    {after : List Glyph} (hstop : stop (g :: after) = false) :
    ∃ c, g = .char c ∧ c ≠ reservedChar := by
  have hfree : ¬ atReserved (g :: after) := fun hr => by
    rw [h _ hr] at hstop
    cases hstop
  cases g with
  | char c =>
    refine ⟨c, rfl, fun hc => hfree ?_⟩
    rw [hc]
    rfl
  | token digits => exact absurd rfl hfree

theorem guarded_someOf {p : Char → Bool} (h : p reservedChar = false) :
    Guarded fun glyphs => !headIs p glyphs := by
  intro glyphs hr
  cases glyphs with
  | nil => cases hr
  | cons g rest =>
    cases g with
    | token => rfl
    | char c =>
      have hc : c = reservedChar := by simpa [atReserved, atToken, headIs, isReserved] using hr
      subst hc
      exact congrArg not h

theorem mem_breakAt {stop : List Glyph → Bool} {glyphs : List Glyph} :
    ∀ g ∈ (breakAt stop glyphs).1, ∃ after, stop (g :: after) = false := by
  induction glyphs with
  | nil => exact fun g hg => absurd hg List.not_mem_nil
  | cons g glyphs ih =>
    rw [breakAt]
    split
    · exact fun g hg => absurd hg List.not_mem_nil
    · next hstop => exact List.forall_mem_cons.mpr ⟨⟨glyphs, Bool.eq_false_iff.mpr hstop⟩, ih⟩

theorem yields_true (r : Reader α) : r.Yields fun _ _ => True := by
  intro glyphs a rest hr
  obtain ⟨taken, he⟩ := r.suffix hr
  exact ⟨taken, he.symm, trivial⟩

namespace Yields

theorem mono (h : r.Yields P) (hPQ : ∀ t a, P t a → Q t a) : r.Yields Q := by
  intro glyphs a rest hr
  obtain ⟨taken, he, hp⟩ := h glyphs a rest hr
  exact ⟨taken, he, hPQ taken a hp⟩

theorem pure {a : α} (h : Q [] a) : (Pure.pure a : Reader α).Yields Q := by
  intro glyphs b rest hr
  rw [run_pure, Option.some.injEq, Prod.mk.injEq] at hr
  obtain ⟨rfl, rfl⟩ := hr
  exact ⟨[], rfl, h⟩

theorem bind {f : α → Reader β} {R : List Glyph → β → Prop} (h : r.Yields P)
    (hf : ∀ t a, P t a → (f a).Yields fun u b => R (t ++ u) b) : (r >>= f).Yields R := by
  intro glyphs b rest hr
  rw [run_bind, Option.bind_eq_some_iff] at hr
  obtain ⟨⟨a, middle⟩, ha, hb⟩ := hr
  obtain ⟨t, rfl, hp⟩ := h glyphs a middle ha
  obtain ⟨u, rfl, hR⟩ := hf t a hp middle b rest hb
  exact ⟨t ++ u, (List.append_assoc ..).symm, hR⟩

theorem after {f : α → Reader β} {R : β → Prop} (hf : ∀ a, (f a).Yields fun _ b => R b) :
    (r >>= f).Yields fun _ b => R b :=
  (yields_true r).bind fun _ a _ => hf a

theorem map {f : α → β} {R : List Glyph → β → Prop} (h : r.Yields fun t a => R t (f a)) :
    (f <$> r).Yields R :=
  h.bind fun t a ha => pure (by rwa [List.append_nil])

theorem fail : (Reader.fail : Reader α).Yields Q := by
  intro glyphs a rest hr
  cases hr

theorem orElse (hr : r.Yields Q) (hs : s.Yields Q) : (Reader.orElse r s).Yields Q := by
  intro glyphs a rest h
  rw [run_orElse, Option.or_eq_some_iff] at h
  rcases h with h | ⟨-, h⟩
  · exact hr glyphs a rest h
  · exact hs glyphs a rest h

theorem firstOf {readers : List (Reader α)} (h : ∀ r ∈ readers, r.Yields Q) :
    (Reader.firstOf readers).Yields Q := by
  induction readers with
  | nil => exact fail
  | cons r readers ih =>
    obtain ⟨hr, hrest⟩ := List.forall_mem_cons.mp h
    exact hr.orElse (ih hrest)

theorem optional {R : List Glyph → Option α → Prop} (h : r.Yields fun t a => R t (some a))
    (hn : R [] none) : (Reader.optional r).Yields R :=
  orElse (map h) (pure hn)

theorem ahead {p : List Glyph → Bool} {R : List Glyph → Unit → Prop} (h : R [] ()) :
    (Reader.ahead p).Yields R := by
  intro glyphs a rest hr
  simp only [Reader.ahead] at hr
  split at hr
  · obtain ⟨-, rfl⟩ := Prod.mk.inj (Option.some.inj hr)
    exact ⟨[], rfl, h⟩
  · cases hr

theorem literal (text : String) : (Reader.literal text).Yields fun t _ => t = spell text := by
  intro glyphs a rest hr
  simp only [Reader.literal] at hr
  split at hr
  · next h =>
    obtain ⟨-, rfl⟩ := Prod.mk.inj (Option.some.inj hr)
    exact ⟨spell text, spell_of_startsWith h, rfl⟩
  · cases hr

theorem upTo (stop : List Glyph → Bool) :
    (Reader.upTo stop).Yields fun t a => t = a ∧ ∀ g ∈ a, ∃ after, stop (g :: after) = false := by
  intro glyphs a rest hr
  obtain rfl : (breakAt stop glyphs).1 = a := congrArg Prod.fst (Option.some.inj hr)
  obtain rfl : (breakAt stop glyphs).2 = rest := congrArg Prod.snd (Option.some.inj hr)
  exact ⟨_, (breakAt_append stop glyphs).symm, rfl, mem_breakAt⟩

theorem someUpTo {stop : List Glyph → Bool} {R : List Glyph → List Glyph → Prop}
    (h : (Reader.upTo stop).Yields R) :
    (Reader.someUpTo stop).Yields fun t a => a ≠ [] ∧ R t a := by
  refine h.bind fun t a ha => ?_
  split
  · exact fail
  · next hne =>
    refine pure ⟨fun he => hne (he ▸ rfl), ?_⟩
    rwa [List.append_nil]

theorem plainUpTo {stop : List Glyph → Bool} (h : Guarded stop) :
    (Reader.upTo stop).Yields fun t a => t = a ∧ Plain a := by
  refine (upTo stop).mono fun t a ⟨he, hstop⟩ => ⟨he, fun g hg => ?_⟩
  obtain ⟨after, hafter⟩ := hstop g hg
  exact plain_of_guarded h hafter

theorem someOf {p : Char → Bool} :
    (Reader.someOf p).Yields fun t a => a ≠ [] ∧ t = a ∧ ∀ g ∈ a, ∃ c, g = .char c ∧ p c := by
  refine someUpTo ((upTo fun glyphs => !headIs p glyphs).mono fun t a ⟨he, hstop⟩ =>
    ⟨he, fun g hg => ?_⟩)
  obtain ⟨after, hafter⟩ := hstop g hg
  have hhead : headIs p (g :: after) := by simpa using hafter
  obtain ⟨c, rest, hc, hp⟩ := char_of_headIs hhead
  exact ⟨c, (List.cons.inj hc).1, hp⟩

theorem ofTake {f : (glyphs : List Glyph) → Option (α × Rest glyphs)}
    (h : ∀ glyphs a rest, f glyphs = some (a, rest) →
      ∃ taken, glyphs = taken ++ rest.left ∧ Q taken a) :
    (Reader.ofTake f).Yields Q := by
  intro glyphs a rest hr
  simp only [Reader.ofTake, Option.map_eq_some_iff, Prod.mk.injEq, Prod.exists] at hr
  obtain ⟨a, rest, hf, rfl, rfl⟩ := hr
  exact h glyphs a rest hf

theorem of_take? {glyphs : List Glyph} {a : α} {rest : Rest glyphs} (h : r.Yields Q)
    (ht : r.take? glyphs = some (a, rest)) : ∃ taken, glyphs = taken ++ rest.left ∧ Q taken a := by
  rw [take?] at ht
  split at ht
  · cases ht
  · next b left hrun =>
    split at ht
    · obtain ⟨rfl, rfl⟩ := Prod.mk.inj (Option.some.inj ht)
      exact h glyphs b left hrun
    · cases ht

theorem many (h : r.Yields Q) : (Reader.many r).Yields (Repeats Q) := by
  intro glyphs as rest hr
  obtain rfl : as = (manyFrom r glyphs).1 := (congrArg Prod.fst (Option.some.inj hr)).symm
  obtain rfl : rest = (manyFrom r glyphs).2 := (congrArg Prod.snd (Option.some.inj hr)).symm
  clear hr
  fun_induction manyFrom r glyphs with
  | case1 glyphs => exact ⟨[], rfl, .nil⟩
  | case2 glyphs a rest ht ih =>
    obtain ⟨t, he, ha⟩ := h.of_take? ht
    obtain ⟨u, hrest, has⟩ := ih
    exact ⟨t ++ u, by rw [List.append_assoc, ← hrest, ← he], .cons ha has⟩

end Yields

end Reader

end Manuscript
