import Manuscript.Markup.Glyph

namespace Manuscript

structure Reader (α : Type) where
  run : List Glyph → Option (α × List Glyph)
  suffix : ∀ {glyphs a rest}, run glyphs = some (a, rest) → rest <:+ glyphs

namespace Reader

variable {α β : Type}

def done (a : α) : Reader α where
  run glyphs := some (a, glyphs)
  suffix h := by
    simp only [Option.some.injEq, Prod.mk.injEq] at h
    exact h.2 ▸ List.suffix_refl _

def andThen (r : Reader α) (f : α → Reader β) : Reader β where
  run glyphs := r.run glyphs >>= fun (a, rest) => (f a).run rest
  suffix h := by
    simp only [Option.bind_eq_bind, Option.bind_eq_some_iff, Prod.exists] at h
    obtain ⟨a, rest, h1, h2⟩ := h
    exact ((f a).suffix h2).trans (r.suffix h1)

instance : Monad Reader where
  pure := done
  bind := andThen

def fail : Reader α := ⟨fun _ => none, fun h => nomatch h⟩

def orElse (r s : Reader α) : Reader α where
  run glyphs := (r.run glyphs).or (s.run glyphs)
  suffix h := by
    rcases Option.or_eq_some_iff.mp h with h | ⟨-, h⟩
    · exact r.suffix h
    · exact s.suffix h

def firstOf (readers : List (Reader α)) : Reader α :=
  readers.foldr orElse fail

def optional (r : Reader α) : Reader (Option α) :=
  orElse (some <$> r) (done none)

def ahead (p : List Glyph → Bool) : Reader Unit where
  run glyphs := if p glyphs then some ((), glyphs) else none
  suffix h := by
    split at h
    · simp only [Option.some.injEq, Prod.mk.injEq] at h
      exact h.2 ▸ List.suffix_refl _
    · exact nomatch h

def literal (s : String) : Reader Unit where
  run glyphs :=
    if Glyph.startsWith s.toList glyphs then some ((), glyphs.drop s.toList.length) else none
  suffix h := by
    split at h
    · simp only [Option.some.injEq, Prod.mk.injEq] at h
      exact h.2 ▸ List.drop_suffix _ _
    · exact nomatch h

def breakAt (stop : List Glyph → Bool) : List Glyph → List Glyph × List Glyph
  | [] => ([], [])
  | g :: rest =>
      if stop (g :: rest) then ([], g :: rest)
      else (g :: (breakAt stop rest).1, (breakAt stop rest).2)

theorem breakAt_append (stop : List Glyph → Bool) (glyphs : List Glyph) :
    (breakAt stop glyphs).1 ++ (breakAt stop glyphs).2 = glyphs := by
  induction glyphs with
  | nil => rfl
  | cons g rest ih => unfold breakAt; split <;> simp_all

def upTo (stop : List Glyph → Bool) : Reader (List Glyph) where
  run glyphs := some (breakAt stop glyphs)
  suffix h := by
    simp only [Option.some.injEq] at h
    exact ⟨_, h ▸ breakAt_append ..⟩

def someUpTo (stop : List Glyph → Bool) : Reader (List Glyph) :=
  andThen (upTo stop) fun glyphs => if glyphs.isEmpty then fail else done glyphs

def someOf (p : Char → Bool) : Reader (List Glyph) :=
  someUpTo fun glyphs => !Glyph.headIs p glyphs

def spaces : Reader (List Glyph) :=
  upTo fun glyphs => !Glyph.headIs (· == ' ') glyphs

structure Rest (whole : List Glyph) where
  left : List Glyph
  suffix : left <:+ whole
  shorter : left.length < whole.length

def Rest.tail (g : Glyph) (rest : List Glyph) : Rest (g :: rest) :=
  ⟨rest, List.suffix_cons _ _, by simp⟩

def Rest.trans {whole : List Glyph} (r : Rest whole) (s : Rest r.left) : Rest whole :=
  ⟨s.left, s.suffix.trans r.suffix, Nat.lt_trans s.shorter r.shorter⟩

def take? (r : Reader α) (glyphs : List Glyph) : Option (α × Rest glyphs) :=
  match h : r.run glyphs with
  | none => none
  | some (a, left) =>
      if hl : left.length < glyphs.length then some (a, ⟨left, r.suffix h, hl⟩) else none

def ofTake (f : (glyphs : List Glyph) → Option (α × Rest glyphs)) : Reader α where
  run glyphs := (f glyphs).map fun (a, rest) => (a, rest.left)
  suffix h := by
    simp only [Option.map_eq_some_iff, Prod.mk.injEq, Prod.exists] at h
    obtain ⟨a, rest, -, -, rfl⟩ := h
    exact rest.suffix

def manyFrom (r : Reader α) (glyphs : List Glyph) : List α × List Glyph :=
  match r.take? glyphs with
  | none => ([], glyphs)
  | some (a, rest) => (a :: (manyFrom r rest.left).1, (manyFrom r rest.left).2)
termination_by glyphs.length
decreasing_by all_goals exact rest.shorter

theorem manyFrom_suffix (r : Reader α) (glyphs : List Glyph) :
    (manyFrom r glyphs).2 <:+ glyphs := by
  fun_induction manyFrom r glyphs with
  | case1 => exact List.suffix_refl _
  | case2 _ _ rest _ ih => exact ih.trans rest.suffix

def many (r : Reader α) : Reader (List α) where
  run glyphs := some (manyFrom r glyphs)
  suffix h := by
    simp only [Option.some.injEq] at h
    have := manyFrom_suffix r
    grind

@[simp] theorem run_pure (a : α) (glyphs : List Glyph) :
    (Pure.pure a : Reader α).run glyphs = some (a, glyphs) := rfl

@[simp] theorem run_bind (r : Reader α) (f : α → Reader β) (glyphs : List Glyph) :
    (r >>= f).run glyphs = (r.run glyphs).bind fun p => (f p.1).run p.2 := rfl

@[simp] theorem run_orElse (r s : Reader α) (glyphs : List Glyph) :
    (orElse r s).run glyphs = (r.run glyphs).or (s.run glyphs) := rfl

end Reader

end Manuscript
