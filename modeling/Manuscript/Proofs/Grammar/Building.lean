import Manuscript.Proofs.Grammar.Reading
import Manuscript.Proofs.Line
import Manuscript.Proofs.Markup.Fragment

namespace Manuscript

open Glyph Reader

namespace Fragment

theorem outOfRange?_append {rule : Rule} (hrule : rule ≠ .callouts) (n : Nat) (t u : List Glyph) :
    outOfRange? rule n (t ++ u) =
      (outOfRange? rule n t).or (outOfRange? rule (n + Peg.size t) u) := by
  induction t generalizing n with
  | nil => rfl
  | cons g t ih =>
    have hsize : n + Peg.size (g :: t) = n + Peg.size [g] + Peg.size t := by
      rw [← List.singleton_append, Peg.size_append, Nat.add_assoc]
    rw [List.cons_append, hsize]
    cases g with
    | token digits =>
      have htoken : Peg.size [.token digits] = Text.byteCount (chars (.token digits)) :=
        congrArg _ (List.append_nil _)
      rw [outOfRange?, outOfRange?, ih, htoken]
      split <;> rfl
    | char c =>
      have hstep (u : List Glyph) :
          outOfRange? rule n (.char c :: u) = outOfRange? rule (n + c.utf8Size) u :=
        outOfRange?.eq_4 _ _ _ _ fun _ _ he => absurd he hrule
      rw [hstep, hstep, ih]
      rfl

theorem outOfRange?_eq_plain {rule : Rule} (hrule : rule ≠ .callouts) (n : Nat)
    (glyphs : List Glyph) : outOfRange? rule n glyphs = outOfRange? .plain n glyphs := by
  induction glyphs generalizing n with
  | nil => rfl
  | cons g glyphs ih =>
    cases g with
    | token digits => rw [outOfRange?, outOfRange?, ih]
    | char c =>
      rw [outOfRange?.eq_4 _ _ _ _ fun _ _ he => absurd he hrule, ih]
      exact (outOfRange?.eq_4 _ _ _ _ fun _ _ he => absurd he (by decide)).symm

end Fragment

theorem merge_map_element {t : List Glyph} (h : numerals t = []) :
    merge (t.map element) = merge [.text (textOf t)] := by
  obtain ⟨cs, rfl⟩ := exists_chars_of_tokenless h
  rw [textOf, flatMap_chars_map_char]
  exact merge_map_char cs

namespace Peg

variable {α β : Type} {n : Nat}

def checked (n : Nat) (taken : List Glyph) (a : α) : Except Failure α :=
  match Fragment.outOfRange? .plain n taken with
  | some cause => .error (.number cause)
  | none => .ok a

theorem checked_of_tokenless {t : List Glyph} (h : numerals t = []) (a : α) :
    checked n t a = .ok a := by
  have hnone : Fragment.outOfRange? .plain n t = none :=
    Fragment.outOfRange?_eq_none (by decide) (by simp [h]) n
  rw [checked, hnone]

theorem checked_append (t u : List Glyph) (a : α) (f : α → β) :
    (checked n t a >>= fun a => checked (n + size t) u (f a)) = checked n (t ++ u) (f a) := by
  rw [checked, checked, Fragment.outOfRange?_append (by decide)]
  cases Fragment.outOfRange? .plain n t <;> rfl

theorem checked_bind_pure (f : α → β) (t : List Glyph) (a : α) :
    (do return f (← checked n t a)) = checked n t (f a) := by
  rw [checked, checked]
  cases Fragment.outOfRange? .plain n t <;> rfl

theorem checked_append_of_left {t : List Glyph} (h : numerals t = []) (u : List Glyph) (a : α) :
    checked n (t ++ u) a = checked (n + size t) u a := by
  exact (checked_append t u a id).symm.trans (by rw [checked_of_tokenless h]; rfl)

theorem checked_append_of_right {u : List Glyph} (h : numerals u = []) (t : List Glyph) (a : α) :
    checked n (t ++ u) a = checked n t a := by
  refine (checked_append t u a id).symm.trans ?_
  simp only [checked_of_tokenless h]
  exact checked_bind_pure id t a

section

variable {options : Options}

theorem buildAll_append (ps qs : List Tree) :
    buildAll options (ps ++ qs) =
      (do return (← buildAll options ps) ++ (← buildAll options qs)) := by
  induction ps with
  | nil =>
    rw [List.nil_append, buildAll]
    cases buildAll options qs <;> rfl
  | cons p ps ih =>
    rw [List.cons_append, buildAll, buildAll, ih]
    cases build options p with
    | error failure => rfl
    | ok xs =>
      cases buildAll options ps with
      | error failure => rfl
      | ok ys =>
        cases buildAll options qs with
        | error failure => rfl
        | ok zs => exact congrArg Except.ok (List.append_assoc ..).symm

def Builds (options : Options) (n : Nat) (t : List Glyph) (ps : List Tree) (xs : List Element) :
    Prop :=
  ∃ ys, buildAll options ps = checked n t ys ∧ merge ys = merge xs

namespace Builds

variable {t u : List Glyph} {ps qs : List Tree} {xs ys : List Element}

theorem nil : Builds options n [] [] [] := ⟨[], by rw [buildAll]; rfl, rfl⟩

theorem append (hxs : Builds options n t ps xs) (hys : Builds options (n + size t) u qs ys) :
    Builds options n (t ++ u) (ps ++ qs) (xs ++ ys) := by
  obtain ⟨xs', hps, hxs⟩ := hxs
  obtain ⟨ys', hqs, hys⟩ := hys
  refine ⟨xs' ++ ys', ?_, merge_append_congr hxs hys⟩
  rw [buildAll_append, hps, hqs, ← checked_append t u xs' (· ++ ys')]
  refine congrArg _ (funext fun zs => ?_)
  exact checked_bind_pure (zs ++ ·) u ys'

theorem congr (h : Builds options n t ps xs) (hmerge : merge xs = merge ys) :
    Builds options n t ps ys := by
  obtain ⟨zs, hps, hzs⟩ := h
  exact ⟨zs, hps, hzs.trans hmerge⟩

theorem of_build {p : Tree} (h : build options p = checked n t xs) : Builds options n t [p] xs := by
  refine ⟨xs, ?_, rfl⟩
  simp only [buildAll, h]
  exact (checked_bind_pure (· ++ []) t xs).trans (by rw [List.append_nil])

theorem of_inner {p : Tree} (hp : build options p = buildAll options ps)
    (h : Builds options n t ps xs) : Builds options n t [p] xs := by
  obtain ⟨ys, hps, hys⟩ := h
  exact (of_build (hp.trans hps)).congr hys

theorem plain {p : Tree} (ht : numerals t = []) (h : build options p = .ok xs) :
    Builds options n t [p] xs :=
  of_build (h.trans (checked_of_tokenless ht xs).symm)

theorem merged (h : Builds options n t ps xs) :
    (do return merge (← buildAll options ps)) = checked n t (merge xs) := by
  obtain ⟨ys, hps, hys⟩ := h
  rw [hps, checked_bind_pure, hys]

end Builds

end

end Peg

end Manuscript
