import Manuscript.Proofs.Escaping.Basic
import Manuscript.Proofs.Markup.Inline

namespace Manuscript

open Glyph Reader

def Glyph.char? : Glyph → Option Char
  | char c => some c
  | token _ => none

def Element.outline : Element → List (Option Char)
  | .text s => s.toList.map some
  | _ => [none]

theorem Element.outline_of_not_isText {x : Element} (h : x.isText = false) :
    x.outline = [none] := by
  cases x <;> first | rfl | cases h

def outline (elements : List Element) : List (Option Char) :=
  elements.flatMap Element.outline

inductive Blurs : List (Option Char) → List (Option Char) → Prop
  | nil : Blurs [] []
  | keep {o o' : List (Option Char)} (c : Char) : Blurs o o' → Blurs (some c :: o) (some c :: o')
  | hide {o o' : List (Option Char)} (piece : List (Option Char)) : Blurs o o' →
      Blurs (piece ++ o) (none :: o')
  | bare {o o' : List (Option Char)} {m : Char} : Quote.isMark m → Blurs o o' →
      Blurs (some '\\' :: some m :: o) (some m :: o')

namespace Blurs

variable {o o' p p' : List (Option Char)}

theorem refl (o : List (Option Char)) : Blurs o o := by
  induction o with
  | nil => exact .nil
  | cons c o ih =>
    cases c with
    | none => exact .hide [none] ih
    | some c => exact .keep c ih

theorem gap (o : List (Option Char)) : Blurs o [none] := by
  simpa using Blurs.hide o .nil

theorem append (h : Blurs o o') (h' : Blurs p p') : Blurs (o ++ p) (o' ++ p') := by
  induction h with
  | nil => exact h'
  | keep c _ ih => exact .keep c ih
  | hide piece _ ih =>
    rw [List.append_assoc]
    exact .hide piece ih
  | bare hm _ ih => exact .bare hm ih

variable {w : List Char}

theorem prefix_of (h : Blurs o o') (hw : ∀ c ∈ w, ¬ Quote.isMark c) (hstart : w.map some <+: o') :
    w.map some <+: o := by
  induction w generalizing o o' with
  | nil => exact List.nil_prefix
  | cons c w ih =>
    obtain ⟨hc, hw⟩ := List.forall_mem_cons.mp hw
    rw [List.map_cons] at hstart
    cases h with
    | nil => simp at hstart
    | keep d h =>
      obtain ⟨hd, hstart⟩ := List.cons_prefix_cons.mp hstart
      exact List.cons_prefix_cons.mpr ⟨hd, ih h hw hstart⟩
    | hide piece h => simp [List.cons_prefix_cons] at hstart
    | bare hm h =>
      obtain ⟨hd, -⟩ := List.cons_prefix_cons.mp hstart
      exact absurd (Option.some.inj hd ▸ hm) hc

theorem infix_of (h : Blurs o o') (hw : ∀ c ∈ w, ¬ Quote.isMark c) (hpart : w.map some <:+: o') :
    w.map some <:+: o := by
  induction h with
  | nil => exact hpart
  | keep c h ih =>
    rcases List.infix_cons_iff.mp hpart with hstart | hpart
    · exact ((keep c h).prefix_of hw hstart).isInfix
    · exact (ih hpart).trans (List.suffix_cons _ _).isInfix
  | hide piece h ih =>
    rcases List.infix_cons_iff.mp hpart with hstart | hpart
    · exact ((hide piece h).prefix_of hw hstart).isInfix
    · exact (ih hpart).trans (List.suffix_append _ _).isInfix
  | @bare _ _ m hm h ih =>
    rcases List.infix_cons_iff.mp hpart with hstart | hpart
    · exact ((bare hm h).prefix_of hw hstart).isInfix
    · exact (ih hpart).trans (List.suffix_append [some '\\', some m] _).isInfix

end Blurs

section Separated

variable {α : Type} {w a b : List α} {x : α}

theorem prefix_of_separated (hx : x ∉ w) (h : w <+: a ++ x :: b) : w <+: a := by
  induction a generalizing w with
  | nil =>
    cases w with
    | nil => exact List.nil_prefix
    | cons y w => simp [(List.cons_prefix_cons.mp h).1] at hx
  | cons y a ih =>
    cases w with
    | nil => exact List.nil_prefix
    | cons z w =>
      obtain ⟨hz, hrest⟩ := List.cons_prefix_cons.mp h
      exact List.cons_prefix_cons.mpr ⟨hz, ih (fun hmem => hx (List.mem_cons_of_mem z hmem)) hrest⟩

theorem infix_of_separated (hx : x ∉ w) (h : w <:+: a ++ x :: b) : w <:+: a ∨ w <:+: b := by
  induction a with
  | nil =>
    rcases List.infix_cons_iff.mp h with hstart | hpart
    · exact .inl (prefix_of_separated hx (a := []) hstart).isInfix
    · exact .inr hpart
  | cons y a ih =>
    rcases List.infix_cons_iff.mp h with hstart | hpart
    · exact .inl (prefix_of_separated hx (a := y :: a) hstart).isInfix
    · exact (ih hpart).imp_left fun h => h.trans (List.suffix_cons _ _).isInfix

end Separated

def counterOpening : List Char := "\x7bcounter".toList

def Uncounted (o : List (Option Char)) : Prop := ¬ counterOpening.map some <:+: o

theorem not_isMark_counterOpening : ∀ c ∈ counterOpening, ¬ Quote.isMark c := by decide

section

variable {o o' : List (Option Char)}

theorem uncounted_nil : Uncounted [] :=
  fun hwritten => absurd (List.infix_nil.mp hwritten) (by decide)

theorem uncounted_map_some {cs : List Char} (h : ¬ counterOpening <:+: cs) :
    Uncounted (cs.map some) := by
  intro hwritten
  apply h
  simpa [List.filterMap_map] using hwritten.filterMap id

theorem Uncounted.of_infix (h : Uncounted o) (hpart : o' <:+: o) : Uncounted o' :=
  fun hwritten => h (hwritten.trans hpart)

theorem Uncounted.of_blurs (h : Uncounted o) (hblurs : Blurs o o') : Uncounted o' :=
  fun hwritten => h (hblurs.infix_of not_isMark_counterOpening hwritten)

theorem uncounted_separated (h : Uncounted o) (h' : Uncounted o') :
    Uncounted (o ++ some '\n' :: o') := by
  intro hwritten
  exact (infix_of_separated (by decide) hwritten).elim h h'

end

section

variable {s : String} {xs ys : List Element}

theorem outline_append : outline (xs ++ ys) = outline xs ++ outline ys := List.flatMap_append

theorem outline_cons {x : Element} : outline (x :: xs) = x.outline ++ outline xs := List.flatMap_cons

theorem outline_singleton {x : Element} : outline [x] = x.outline := List.flatMap_singleton _ _

theorem outline_pushText (s : String) (xs : List Element) :
    outline (pushText s xs) = s.toList.map some ++ outline xs := by
  unfold pushText
  split
  · simp [outline_cons, Element.outline]
  · split
    · next h => simp [h]
    · rfl

theorem outline_merge (xs : List Element) : outline (merge xs) = outline xs := by
  fun_induction merge xs with
  | case1 => rfl
  | case2 s rest ih => rw [outline_pushText, ih]; rfl
  | case3 x rest _ ih => rw [outline_cons, ih, ← outline_cons]

theorem outline_textOf {t : List Glyph} (h : Plain t) : outline [.text (textOf t)] = t.map char? := by
  obtain ⟨cs, rfl, -⟩ := exists_chars_of_plain h
  rw [outline_singleton, Element.outline, textOf_map_char, String.toList_ofList, List.map_map]
  rfl

theorem outline_glyph (g : Glyph) : outline [g.element] = [g.char?] := by
  cases g <;> simp [outline_singleton, Element.outline, element, char?]

theorem infix_outline_of_mem {x : Element} (h : x ∈ xs) : x.outline <:+: outline xs := by
  obtain ⟨before, after, rfl⟩ := List.append_of_mem h
  rw [outline_append, outline_cons]
  exact ⟨outline before, outline after, List.append_assoc ..⟩

end

end Manuscript
