import Manuscript.Proofs.Directive
import Manuscript.Proofs.Escaping.Outline
import Manuscript.Proofs.Run
import Manuscript.Proofs.Words
import Mathlib.Data.List.TakeWhile

namespace Manuscript

namespace Text

theorem not_mem_of_mem_fields {sep : Char} {cs f : List Char}
    (h : f ∈ fields (· == sep) cs) : sep ∉ f :=
  fun hmem => beq_eq_false_iff_ne.mp (not_of_mem_fields h sep hmem) rfl

end Text

section Splitting

variable {P : Line → Prop} {line start : Line} {lines before after : List Line}

theorem prependTo_ne_nil : prependTo start lines ≠ [] := by
  cases lines <;> exact List.cons_ne_nil _ _

theorem joinLines_ne_nil (h : before ≠ []) : joinLines before after ≠ [] := by
  fun_cases joinLines before after with
  | case1 => exact absurd rfl h
  | case2 => exact prependTo_ne_nil
  | case3 => exact List.cons_ne_nil _ _

theorem splitOn_ne_nil (s : String) : (Text.splitOn '\n' s).map fragment ≠ [] := by
  simpa [Text.splitOn] using Text.fields_ne_nil (· == '\n') s.toList

theorem splitLine_ne_nil (line : Line) : splitLine line ≠ [] := by
  fun_cases splitLine line with
  | case1 => exact List.cons_ne_nil _ _
  | case2 s rest => exact joinLines_ne_nil (splitOn_ne_nil s)
  | case3 => exact prependTo_ne_nil

theorem forall_mem_splitLine (hnil : P []) (happend : ∀ a b, P a → P b → P (a ++ b))
    (hfragment : ∀ s : String, '\n' ∉ s.toList → P (fragment s))
    (hother : ∀ x : Element, x.isText = false → P [x]) : ∀ part ∈ splitLine line, P part := by
  fun_induction splitLine line with
  | case1 => exact List.forall_mem_singleton.mpr hnil
  | case2 s rest ih =>
    refine forall_mem_joinLines (fun _ hstart _ _ => happend _ _ hstart)
      (List.forall_mem_map.mpr fun part hpart => ?_) ih
    obtain ⟨f, hf, rfl⟩ := List.mem_map.mp hpart
    exact hfragment _ (by rw [String.toList_ofList]; exact Text.not_mem_of_mem_fields hf)
  | case3 x rest hno ih =>
    have hx : x.isText = false := by
      cases x with
      | text s => exact absurd rfl (hno s)
      | _ => rfl
    exact forall_mem_prependTo (hother x hx) (fun _ _ => happend _ _ (hother x hx)) ih

def outlines (lines : List Line) : List (Option Char) :=
  [some '\n'].intercalate (lines.map outline)

theorem outlines_cons (h : lines ≠ []) :
    outlines (line :: lines) = outline line ++ some '\n' :: outlines lines := by
  obtain ⟨next, rest, rfl⟩ := List.exists_cons_of_ne_nil h
  simp [outlines, List.intercalate_cons_cons]

theorem outlines_singleton : outlines [line] = outline line := by
  rw [outlines, List.map_singleton, List.intercalate_singleton]

theorem outlines_prependTo : outlines (prependTo start lines) = outline start ++ outlines lines := by
  cases lines with
  | nil => simp [prependTo, outlines]
  | cons line rest =>
    cases rest with
    | nil => rw [prependTo, outlines_singleton, outlines_singleton, outline_append]
    | cons next rest =>
      rw [prependTo, outlines_cons (List.cons_ne_nil _ _), outlines_cons (List.cons_ne_nil _ _),
        outline_append, List.append_assoc]

theorem outlines_joinLines : outlines (joinLines before after) = outlines before ++ outlines after := by
  fun_induction joinLines before after with
  | case1 after => rfl
  | case2 line after => rw [outlines_prependTo, outlines_singleton]
  | case3 line rest after hne ih =>
    have hrest : rest ≠ [] := hne
    rw [outlines_cons (joinLines_ne_nil hrest), ih, outlines_cons hrest, List.append_assoc,
      List.cons_append]

theorem outline_fragment (s : String) : outline (fragment s) = s.toList.map some := by
  rw [fragment]
  split
  · next h => rw [h]; rfl
  · exact outline_singleton

theorem outlines_fields (cs : List Char) :
    outlines ((Text.fields (· == '\n') cs).map fun f => fragment (String.ofList f)) = cs.map some := by
  induction cs with
  | nil => rfl
  | cons c cs ih =>
    obtain ⟨first, rest, hfields⟩ := List.exists_cons_of_ne_nil (Text.fields_ne_nil (· == '\n') cs)
    rw [hfields, List.map_cons] at ih
    rw [Text.fields, hfields]
    split
    · next hsep =>
      rw [List.map_cons, List.map_cons, outlines_cons (List.cons_ne_nil _ _), ih, eq_of_beq hsep]
      rfl
    · have hmore (lines : List Line) : outlines (fragment (String.ofList (c :: first)) :: lines) =
          some c :: outlines (fragment (String.ofList first) :: lines) := by
        by_cases hlines : lines = []
        · simp [hlines, outlines_singleton, outline_fragment]
        · simp [outlines_cons hlines, outline_fragment]
      rw [List.map_cons, hmore, ih, List.map_cons]

theorem outlines_splitOn (s : String) :
    outlines ((Text.splitOn '\n' s).map fragment) = s.toList.map some := by
  rw [Text.splitOn, List.map_map]
  exact outlines_fields s.toList

theorem outlines_splitLine (line : Line) : outlines (splitLine line) = outline line := by
  fun_induction splitLine line with
  | case1 => rfl
  | case2 s rest ih => rw [outlines_joinLines, outlines_splitOn, ih, outline_cons]; rfl
  | case3 x rest _ ih => rw [outlines_prependTo, ih, outline_singleton, outline_cons]

def Unsplit (line : Line) : Prop := some '\n' ∉ outline line ∧ .text "" ∉ line

theorem unsplit_of_mem_splitLine : ∀ part ∈ splitLine line, Unsplit part := by
  refine forall_mem_splitLine ⟨List.not_mem_nil, List.not_mem_nil⟩ ?_ (fun s hs => ?_) fun x hx => ?_
  · rintro a b ⟨ha, ha'⟩ ⟨hb, hb'⟩
    rw [Unsplit, outline_append]
    exact ⟨List.not_mem_append ha hb, List.not_mem_append ha' hb'⟩
  · refine ⟨by simpa [outline_fragment] using hs, ?_⟩
    rw [fragment]
    split
    · exact List.not_mem_nil
    · next hne => simpa using Ne.symm hne
  · rw [Unsplit, outline_singleton, Element.outline_of_not_isText hx]
    exact ⟨by simp, fun hmem => by cases List.mem_singleton.mp hmem; cases hx⟩

theorem eq_nil_of_outline (h : .text "" ∉ line) (hnone : outline line = []) : line = [] := by
  cases line with
  | nil => rfl
  | cons x rest =>
    rw [outline_cons] at hnone
    have hx := (List.append_eq_nil_iff.mp hnone).1
    cases x with
    | text s =>
      obtain rfl : s = "" := String.toList_eq_nil_iff.mp (List.map_eq_nil_iff.mp hx)
      exact absurd List.mem_cons_self h
    | _ => cases hx

theorem exists_splitLine_eq (line : Line) : ∃ first rest, splitLine line = first :: rest ∧
    Unsplit first ∧ (∀ part ∈ rest, Unsplit part) ∧ outlines (first :: rest) = outline line := by
  obtain ⟨first, rest, hsplit⟩ := List.exists_cons_of_ne_nil (splitLine_ne_nil line)
  have hunsplit : ∀ part ∈ splitLine line, Unsplit part := unsplit_of_mem_splitLine
  rw [hsplit] at hunsplit
  obtain ⟨hfirst, hrest⟩ := List.forall_mem_cons.mp hunsplit
  exact ⟨first, rest, hsplit, hfirst, hrest, hsplit ▸ outlines_splitLine line⟩

theorem rest_eq_nil_iff {first : Line} {rest : List Line} (hfirst : Unsplit first)
    (h : outlines (first :: rest) = outline line) : rest = [] ↔ some '\n' ∉ outline line := by
  constructor
  · rintro rfl
    rw [← h, outlines_singleton]
    exact hfirst.1
  · intro hnone
    by_contra hrest
    rw [← h, outlines_cons hrest] at hnone
    exact hnone (List.mem_append_right _ List.mem_cons_self)

theorem Unsplit.eq_nil_iff (h : Unsplit line) : line = [] ↔ ∀ o ∈ outline line, o = some '\n' := by
  refine ⟨fun hnil => hnil ▸ fun o ho => absurd ho List.not_mem_nil, fun hall => eq_nil_of_outline h.2 ?_⟩
  exact List.eq_nil_iff_forall_not_mem.mpr fun o ho => h.1 (hall o ho ▸ ho)

theorem forall_eq_nil_iff (h : ∀ part ∈ lines, Unsplit part) :
    (∀ part ∈ lines, part = []) ↔ ∀ o ∈ outlines lines, o = some '\n' := by
  induction lines with
  | nil => exact iff_of_true (fun _ h => absurd h List.not_mem_nil) fun _ h => absurd h List.not_mem_nil
  | cons line rest ih =>
    obtain ⟨hline, hrest⟩ := List.forall_mem_cons.mp h
    rw [List.forall_mem_cons, hline.eq_nil_iff, ih hrest]
    by_cases hnone : rest = []
    · simp [hnone, outlines]
    · rw [outlines_cons hnone, List.forall_mem_append, List.forall_mem_cons, eq_self, true_and]

theorem flatten_rest_eq_nil_iff {first : Line} {rest : List Line} (hfirst : Unsplit first)
    (hrest : ∀ part ∈ rest, Unsplit part) (h : outlines (first :: rest) = outline line) :
    rest.flatten = [] ↔ ∀ o ∈ (outline line).dropWhile (· ≠ some '\n'), o = some '\n' := by
  have hbefore : ∀ o ∈ outline first, decide (o ≠ some '\n') = true := fun o ho =>
    decide_eq_true fun he => hfirst.1 (he ▸ ho)
  rw [List.flatten_eq_nil_iff, forall_eq_nil_iff hrest]
  by_cases hnone : rest = []
  · rw [hnone, outlines_singleton] at h
    rw [← h, List.dropWhile_eq_nil_iff.mpr hbefore, hnone]
    exact iff_of_true (fun _ h => absurd h List.not_mem_nil) fun _ h => absurd h List.not_mem_nil
  · rw [← h, outlines_cons hnone, List.dropWhile_append_of_pos hbefore,
      List.dropWhile_cons_of_neg (by simp), List.forall_mem_cons, eq_self, true_and]

end Splitting

namespace Pass

variable {setting : Setting} {step : Step} {steps : List Step} {block : String} {index : Nat}
  {lines after : List Line} {line : Line} {s s' : PassState}

theorem exists_line_of_applyStep (hstep : step ≠ .splitLines)
    (h : runFrom s (applyStep setting block step lines) = (.ok after, s')) :
    ∃ whole, after = [whole] := by
  cases hrule : step.rule? with
  | none => exact absurd (Step.eq_splitLines_of_rule? hrule) hstep
  | some rule =>
    obtain ⟨whole, -, ⟨-, rfl, -⟩ | ⟨-, resolved, -, -, rfl, -⟩⟩ := applyStep_cases hrule h
    · exact ⟨whole, rfl⟩
    · exact ⟨resolved, rfl⟩

theorem exists_line_of_through (hsteps : .splitLines ∉ steps)
    (h : Through (Takes setting block) steps [line] after) : ∃ whole, after = [whole] := by
  induction steps generalizing line with
  | nil =>
    cases h
    exact ⟨line, rfl⟩
  | cons step rest ih =>
    rw [List.mem_cons, not_or] at hsteps
    obtain _ | ⟨⟨s, s', hstep⟩, hrest⟩ := h
    obtain ⟨whole, rfl⟩ := exists_line_of_applyStep (Ne.symm hsteps.1) hstep
    exact ih hsteps.2 hrest

theorem splitLine_of_applySteps
    (h : runFrom s (applySteps setting block index [.splitLines] [line]) = (.ok after, s')) :
    after = splitLine line := by
  obtain ⟨middle, s₁, s₂, hstep, -, hrest⟩ := cases_applySteps_cons h
  cases hstep
  cases hrest
  exact List.flatMap_singleton _ _

end Pass

end Manuscript
