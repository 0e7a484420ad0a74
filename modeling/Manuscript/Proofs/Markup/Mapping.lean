import Manuscript.Markup.Fragment
import Manuscript.Proofs.Merged

namespace Manuscript

open Glyph Reader

namespace Reader

variable {α β : Type} {r s : Reader α} {f : α → β} {glyphs : List Glyph}

theorem ext_run (h : ∀ glyphs, r.run glyphs = s.run glyphs) : r = s := by
  obtain ⟨run, suffix⟩ := r
  obtain ⟨run', suffix'⟩ := s
  obtain rfl : run = run' := funext h
  rfl

instance : LawfulMonad Reader := by
  refine LawfulMonad.mk' Reader ?_ ?_ ?_
  · intro α r
    refine ext_run fun glyphs => ?_
    change (r.run glyphs).bind _ = _
    cases r.run glyphs <;> rfl
  · intro α β a f
    rfl
  · intro α β γ r f g
    refine ext_run fun glyphs => ?_
    change ((r.run glyphs).bind _).bind _ = (r.run glyphs).bind _
    exact Option.bind_assoc ..

theorem run_map (f : α → β) (r : Reader α) (glyphs : List Glyph) :
    (f <$> r).run glyphs = (r.run glyphs).map (Prod.map f id) := by
  change (r.run glyphs).bind _ = _
  cases r.run glyphs <;> rfl

theorem map_orElse (f : α → β) (r s : Reader α) :
    f <$> orElse r s = orElse (f <$> r) (f <$> s) := by
  refine ext_run fun glyphs => ?_
  rw [run_map, run_orElse, run_orElse, run_map, run_map, Option.map_or]

theorem map_firstOf (f : α → β) (readers : List (Reader α)) :
    f <$> firstOf readers = firstOf (readers.map (f <$> ·)) := by
  induction readers with
  | nil => exact ext_run fun _ => rfl
  | cons r readers ih => exact (map_orElse ..).trans (congrArg _ ih)

theorem take?_eq_some_iff {a : α} {rest : Rest glyphs} :
    r.take? glyphs = some (a, rest) ↔ r.run glyphs = some (a, rest.left) := by
  obtain ⟨left, suffix, shorter⟩ := rest
  rw [take?]
  split
  · next hr => simp [hr]
  · next b left' hr =>
    have hresult : r.run glyphs = some (a, left) ↔ b = a ∧ left' = left := by simp [hr]
    rw [hresult]
    split
    · simp
    · next hl =>
      constructor
      · exact nofun
      · rintro ⟨-, rfl⟩
        exact absurd shorter hl

theorem take?_eq_none_iff : r.take? glyphs = none ↔
    ∀ a left, r.run glyphs = some (a, left) → ¬ left.length < glyphs.length := by
  rw [Option.eq_none_iff_forall_ne_some]
  constructor
  · intro h a left hr hl
    exact h (a, ⟨left, r.suffix hr, hl⟩) (take?_eq_some_iff.mpr hr)
  · rintro h ⟨a, rest⟩ ht
    exact h a rest.left (take?_eq_some_iff.mp ht) rest.shorter

theorem take?_of_run_eq_none (h : r.run glyphs = none) : r.take? glyphs = none :=
  take?_eq_none_iff.mpr fun a left hr => by rw [h] at hr; cases hr

theorem take?_congr (h : r.run glyphs = s.run glyphs) : r.take? glyphs = s.take? glyphs := by
  refine Option.ext fun found => ?_
  obtain ⟨a, rest⟩ := found
  rw [take?_eq_some_iff, take?_eq_some_iff, h]

theorem take?_map (f : α → β) (r : Reader α) (glyphs : List Glyph) :
    (f <$> r).take? glyphs = (r.take? glyphs).map (Prod.map f id) := by
  cases ht : r.take? glyphs with
  | some result =>
    obtain ⟨a, rest⟩ := result
    refine take?_eq_some_iff.mpr ?_
    rw [run_map, take?_eq_some_iff.mp ht]
    rfl
  | none =>
    refine take?_eq_none_iff.mpr fun b left hr => ?_
    rw [run_map, Option.map_eq_some_iff] at hr
    obtain ⟨⟨a, left'⟩, ha, he⟩ := hr
    obtain ⟨-, rfl⟩ := Prod.mk.inj he
    exact take?_eq_none_iff.mp ht a _ ha

theorem manyFrom_map (f : α → β) (r : Reader α) (glyphs : List Glyph) :
    manyFrom (f <$> r) glyphs = ((manyFrom r glyphs).1.map f, (manyFrom r glyphs).2) := by
  fun_induction manyFrom r glyphs with
  | case1 glyphs ht =>
    rw [manyFrom, take?_map, ht]
    rfl
  | case2 glyphs a rest ht ih =>
    rw [manyFrom, take?_map, ht]
    exact congrArg (fun p => (f a :: p.1, p.2)) ih

theorem run_ahead (p : List Glyph → Bool) (glyphs : List Glyph) :
    (ahead p).run glyphs = if p glyphs then some ((), glyphs) else none := rfl

theorem run_someUpTo (stop : List Glyph → Bool) (glyphs : List Glyph) :
    (someUpTo stop).run glyphs =
      if (breakAt stop glyphs).1.isEmpty then none else some (breakAt stop glyphs) := by
  change (if (breakAt stop glyphs).1.isEmpty then Reader.fail else done _).run _ = _
  split <;> rfl

theorem run_optional_of_some {a : α} {rest : List Glyph} (h : r.run glyphs = some (a, rest)) :
    (Reader.optional r).run glyphs = some (some a, rest) := by
  rw [Reader.optional, run_orElse, run_map, h]
  rfl

theorem run_firstOf_cons (r : Reader α) (readers : List (Reader α)) (glyphs : List Glyph) :
    (firstOf (r :: readers)).run glyphs = (r.run glyphs).or ((firstOf readers).run glyphs) := rfl

theorem run_literal_of_not {s : String} (h : startsWith s.toList glyphs = false) :
    (literal s).run glyphs = none := by
  change (if startsWith s.toList glyphs then _ else _) = _
  rw [h]
  rfl

theorem run_someOf_of_not {p : Char → Bool} {glyphs : List Glyph} (h : headIs p glyphs = false) :
    (someOf p).run glyphs = none := by
  rw [someOf, run_someUpTo]
  cases glyphs with
  | nil => rfl
  | cons g rest => rw [breakAt, h]; rfl

theorem run_many_of_none (h : r.run glyphs = none) : (many r).run glyphs = some ([], glyphs) := by
  have hfrom : manyFrom r glyphs = ([], glyphs) := by rw [manyFrom, take?_of_run_eq_none h]
  exact congrArg some hfrom

theorem manyFrom_of_run {left : List Glyph} {a : α}
    (h : r.run glyphs = some (a, left)) (hl : left.length < glyphs.length) :
    manyFrom r glyphs = (a :: (manyFrom r left).1, (manyFrom r left).2) := by
  have ht : r.take? glyphs = some (a, ⟨left, r.suffix h, hl⟩) := take?_eq_some_iff.mpr h
  rw [manyFrom, ht]

theorem map_many (f : α → β) (r : Reader α) : many (f <$> r) = List.map f <$> many r := by
  refine ext_run fun glyphs => ?_
  rw [run_map]
  exact congrArg some (manyFrom_map f r glyphs)

end Reader

theorem map_single (f : Element → Element) (r : Reader Element) :
    Construct.single (f <$> r) = List.map f <$> Construct.single r := by
  simp only [Construct.single, bind_pure_comp, Functor.map_map, List.map_cons, List.map_nil]

theorem Fragment.read_of_run {construct : Reader (List Element)} {glyphs left : List Glyph}
    {c : Char} {xs : List Element} (h : construct.run (.char c :: glyphs) = some (xs, left))
    (hl : left.length < (Glyph.char c :: glyphs).length) :
    read construct (.char c :: glyphs) = xs ++ read construct left := by
  have ht : construct.take? (.char c :: glyphs) = some (xs, ⟨left, construct.suffix h, hl⟩) :=
    take?_eq_some_iff.mpr h
  rw [read, ht]

theorem Fragment.read_char {construct : Reader (List Element)} {glyphs : List Glyph} {c : Char}
    (h : construct.run (.char c :: glyphs) = none) (hc : Text.isWordChar c = false) :
    read construct (.char c :: glyphs) = .text (String.singleton c) :: read construct glyphs := by
  rw [read, take?_of_run_eq_none h]
  simp only [hc]
  rfl

theorem Fragment.read_word {construct : Reader (List Element)} {glyphs word left : List Glyph}
    {c : Char} (h : construct.run (.char c :: glyphs) = none) (hc : Text.isWordChar c = true)
    (hword : breakAt (fun glyphs => !continuesWord glyphs) glyphs = (word, left)) :
    read construct (.char c :: glyphs) = .text (textOf (.char c :: word)) :: read construct left := by
  rw [read, take?_of_run_eq_none h]
  simp only [hc, hword]
  rfl

theorem Fragment.read_map {f : Element → Element} (htext : ∀ s, f (.text s) = .text s)
    (hplaceholder : ∀ n, f (.placeholder n) = .placeholder n) (construct : Reader (List Element))
    (glyphs : List Glyph) :
    read (List.map f <$> construct) glyphs = (read construct glyphs).map f := by
  fun_induction read construct glyphs with
  | case1 => rw [read, List.map_nil]
  | case2 digits rest ih => rw [read, ih, List.map_cons, hplaceholder]
  | case3 c rest elements left ht ih =>
    rw [read, take?_map, ht, List.map_append]
    exact congrArg (elements.map f ++ ·) ih
  | case4 c rest ht hword word ih =>
    rw [read, take?_map, ht, List.map_cons, htext]
    simp [hword, ih, word]
  | case5 c rest ht hword ih =>
    rw [read, take?_map, ht, List.map_cons, htext]
    simp [hword, ih]

theorem map_pushText {f : Element → Element} (htext : ∀ s, f (.text s) = .text s)
    (hother : ∀ element s, f element = .text s → element = .text s) (s : String)
    (elements : List Element) : (pushText s elements).map f = pushText s (elements.map f) := by
  have hrest (hnot : ∀ t rest, elements = .text t :: rest → False) (t : String)
      (rest : List Element) : elements.map f = .text t :: rest → False := by
    intro hmap
    obtain ⟨element, others, rfl, he, -⟩ := List.map_eq_cons_iff.mp hmap
    exact hnot t others (by rw [hother element t he])
  fun_cases pushText s elements with
  | case1 t rest => rw [List.map_cons, List.map_cons, htext, htext, pushText]
  | case2 _ hnot hempty => rw [pushText.eq_2 _ _ (hrest hnot), if_pos hempty]
  | case3 _ hnot hsome => rw [pushText.eq_2 _ _ (hrest hnot), if_neg hsome, List.map_cons, htext]

theorem map_merge {f : Element → Element} (htext : ∀ s, f (.text s) = .text s)
    (hother : ∀ element s, f element = .text s → element = .text s) (elements : List Element) :
    (merge elements).map f = merge (elements.map f) := by
  fun_induction merge elements with
  | case1 => rfl
  | case2 s rest ih => rw [map_pushText htext hother, ih, List.map_cons, htext, merge]
  | case3 element rest hnot ih =>
    rw [List.map_cons, List.map_cons, merge.eq_3 _ _ fun s h => hnot s (hother _ s h), ih]

end Manuscript
