import Manuscript.Proofs.Grammar.Numbers

namespace Manuscript

open Glyph Reader

namespace Reader

variable {α : Type} {stop halt : List Glyph → Bool}

def oneOrMore (r : Reader α) : Reader (List α) := do
  let first ← r
  return first :: (← many r)

theorem breakAt_of_le (h : ∀ glyphs, stop glyphs → halt glyphs) (glyphs : List Glyph) :
    breakAt stop glyphs = ((breakAt halt glyphs).1 ++ (breakAt stop (breakAt halt glyphs).2).1,
      (breakAt stop (breakAt halt glyphs).2).2) := by
  induction glyphs with
  | nil => rfl
  | cons g rest ih =>
    cases hhalt : halt (g :: rest) with
    | true => rw [breakAt.eq_2 halt, hhalt]; rfl
    | false =>
      have hstop : stop (g :: rest) = false := by
        refine Bool.eq_false_iff.mpr fun hs => ?_
        rw [h _ hs] at hhalt
        cases hhalt
      rw [breakAt.eq_2 halt, hhalt, breakAt.eq_2 stop, hstop, ih]
      rfl

theorem numerals_breakAt (h : ∀ digits rest, stop (.token digits :: rest)) (glyphs : List Glyph) :
    numerals (breakAt stop glyphs).1 = [] := by
  refine List.filterMap_eq_nil_iff.mpr fun g hg => ?_
  obtain ⟨after, hafter⟩ := mem_breakAt g hg
  cases g with
  | char c => rfl
  | token digits => rw [h] at hafter; cases hafter

def textEnd (stop : List Glyph → Bool) (glyphs : List Glyph) : Bool :=
  atToken glyphs || stop glyphs

def piece (stop : List Glyph → Bool) : Reader Element :=
  firstOf [Macro.token, do return .text (textOf (← someUpTo (textEnd stop)))]

section

variable (htoken : ∀ digits rest, stop (.token digits :: rest) = false)
include htoken

theorem piece_cases (glyphs : List Glyph) :
    (piece stop).run glyphs = none ∧ breakAt stop glyphs = ([], glyphs) ∨
    ∃ t x left, t ≠ [] ∧ glyphs = t ++ left ∧ (piece stop).run glyphs = some (x, left) ∧
      merge [x] = content t ∧
      breakAt stop glyphs = (t ++ (breakAt stop left).1, (breakAt stop left).2) := by
  rcases glyphs with _ | ⟨c | digits, rest⟩
  · exact .inl ⟨rfl, rfl⟩
  · have hrun : (piece stop).run (.char c :: rest) =
        ((someUpTo (textEnd stop)).run (.char c :: rest)).map (Prod.map (fun t => .text (textOf t)) id) := by
      rw [← run_map]
      exact Option.or_none
    rw [hrun, run_someUpTo]
    cases hstop : stop (.char c :: rest) with
    | true =>
      have hhalt : textEnd stop (.char c :: rest) = true := by simp [textEnd, hstop]
      refine .inl ⟨?_, by rw [breakAt, hstop]; rfl⟩
      rw [breakAt, hhalt]
      rfl
    | false =>
      have hhalt : textEnd stop (.char c :: rest) = false := by simp [textEnd, hstop, atToken]
      have ht : numerals (breakAt (textEnd stop) (.char c :: rest)).1 = [] := numerals_breakAt (fun _ _ => rfl) _
      have hne : (breakAt (textEnd stop) (.char c :: rest)).1 ≠ [] := by
        rw [breakAt, hhalt]
        exact List.cons_ne_nil _ _
      refine .inr ⟨_, .text (textOf (breakAt (textEnd stop) (.char c :: rest)).1), _, hne,
        (breakAt_append ..).symm, ?_, (merge_map_element ht).symm,
        breakAt_of_le (fun glyphs h => by simp [textEnd, h]) _⟩
      rw [if_neg (by simpa using hne)]
      rfl
  · refine .inr ⟨[.token digits], .placeholder (reference digits), rest, List.cons_ne_nil _ _, rfl, rfl,
      rfl, ?_⟩
    rw [breakAt, htoken]
    rfl

theorem manyFrom_piece (glyphs : List Glyph) :
    merge (manyFrom (piece stop) glyphs).1 = content (breakAt stop glyphs).1 ∧
      (manyFrom (piece stop) glyphs).2 = (breakAt stop glyphs).2 := by
  induction hlength : glyphs.length using Nat.strongRecOn generalizing glyphs with
  | ind k ih =>
    rcases piece_cases htoken glyphs with ⟨hnone, hbreak⟩ | ⟨t, x, left, hne, rfl, hrun, hx, hbreak⟩
    · rw [manyFrom, take?_of_run_eq_none hnone, hbreak]
      exact ⟨rfl, rfl⟩
    · have hshorter : left.length < (t ++ left).length := by
        rw [List.length_append]
        exact Nat.lt_add_of_pos_left (List.length_pos_iff.mpr hne)
      obtain ⟨hmerge, hleft⟩ := ih _ (hlength ▸ hshorter) left rfl
      rw [manyFrom_of_run hrun hshorter, hbreak]
      refine ⟨?_, hleft⟩
      rw [content, List.map_append]
      exact merge_append_congr hx hmerge

theorem content_someUpTo :
    (content <$> someUpTo stop) = merge <$> oneOrMore (piece stop) := by
  refine ext_run fun glyphs => ?_
  rw [run_map, run_map, run_someUpTo, oneOrMore, run_bind]
  rcases piece_cases htoken glyphs with ⟨hnone, hbreak⟩ | ⟨t, x, left, hne, rfl, hrun, hx, hbreak⟩
  · rw [hnone, hbreak]
    rfl
  · obtain ⟨hmerge, hleft⟩ := manyFrom_piece htoken left
    rw [hrun, hbreak, if_neg (by simp [hne])]
    change some (content _, _) = some (merge (x :: (manyFrom _ left).1), (manyFrom _ left).2)
    rw [content, List.map_append, merge_append_congr hx.symm hmerge.symm, hleft]
    rfl

end

end Reader

namespace Peg

open Peg.Expr

variable {n : Nat} {options : Options} {e : Expression} {stop : List Glyph → Bool}

theorem Reads.plus {α : Type} {r : Reader α} {P : Nat → List Glyph → List Tree → α → Prop}
    (h : ∀ n, Reads n e r (P n)) (hne : ∀ n t ps a, P n t ps a → t ≠ []) (n : Nat) :
    Reads n (plus e) (oneOrMore r) fun t ps as => t ≠ [] ∧ Repeated P n t ps as := by
  refine Reads.bind (h n) fun t ps a hp => ?_
  refine Reads.map ((Reads.many h hne _).mono fun u qs as hu => ⟨?_, .cons hp hu⟩)
  exact List.append_ne_nil_of_left_ne_nil (hne _ _ _ _ hp) _

theorem Builds.of_repeated {t : List Glyph} {ps : List Tree} {xs : List Element}
    (h : Repeated (fun n t ps x => t ≠ [] ∧ Builds options n t ps [x]) n t ps xs) :
    Builds options n t ps xs := by
  induction h with
  | nil => exact .nil
  | cons hx _ ih => exact hx.2.append ih

def Gives (options : Options) (n : Nat) (t : List Glyph) (ps : List Tree) (xs : List Element) : Prop :=
  (do return merge (← buildAll options ps)) = checked n t xs

theorem Gives.bind {α : Type} {t : List Glyph} {ps : List Tree} {xs : List Element}
    (h : Gives options n t ps xs) (f : List Element → Except Failure α) :
    (do let content := merge (← buildAll options ps); f content) = checked n t xs >>= f := by
  rw [← h]
  cases buildAll options ps <;> rfl

theorem reads_text {text : Name} (htext : grammar text = .atomic (plus (except e)))
    (hbuild : ∀ n cs, build options (.node text n cs []) = .ok [.text (String.ofList cs)])
    (h : Tests e stop) (htoken : ∀ digits rest, stop (.token digits :: rest)) :
    ReadsElement options n (call text) (do return .text (textOf (← someUpTo stop))) := by
  refine .map ((reads_plus htext h htoken).mono ?_)
  rintro t _ _ ⟨⟨rfl, rfl, ht⟩, hne⟩
  exact ⟨hne, .plain ht (hbuild _ _)⟩

theorem reads_withPlaceholders {text : Name} (htext : grammar text = .atomic (plus (except e)))
    (hbuild : ∀ n cs, build options (.node text n cs []) = .ok [.text (String.ofList cs)])
    (h : Tests e (textEnd stop)) (htoken : ∀ digits rest, stop (.token digits :: rest) = false) :
    Reads n (withPlaceholders text) (do return content (← someUpTo stop))
      fun t ps xs => t ≠ [] ∧ Gives options n t ps xs := by
  have hpiece (n : Nat) : ReadsElement options n (choose [call .placeholder, call text]) (piece stop) :=
    .firstOf (.cons reads_placeholder (.cons (reads_text htext hbuild h fun _ _ => rfl) .nil))
  rw [bind_pure_comp, content_someUpTo htoken]
  refine .map ((Reads.plus hpiece (fun _ _ _ _ hp => hp.1) n).mono ?_)
  rintro t ps xs ⟨hne, hxs⟩
  exact ⟨hne, (Builds.of_repeated hxs).merged⟩

end Peg

end Manuscript
