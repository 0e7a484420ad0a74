import Manuscript.Element.Plain
import Manuscript.Substitution.Identifier
import Mathlib.Data.List.TakeWhile

namespace Manuscript.Identifier

inductive Runs (p : Char → Bool) : List Char → List (List Char) → Prop
  | none {gap : List Char} : (∀ c ∈ gap, p c = false) → Runs p gap []
  | run {gap run rest : List Char} {runs : List (List Char)} :
      (∀ c ∈ gap, p c = false) → run ≠ [] → (∀ c ∈ run, p c) → (∀ c ∈ rest.head?, p c = false) →
      Runs p rest runs → Runs p (gap ++ (run ++ rest)) (run :: runs)

def runsOf (p : Char → Bool) (cs : List Char) : List (List Char) :=
  match cs with
  | [] => []
  | c :: cs => if p c then (c :: cs.takeWhile p) :: runsOf p (cs.dropWhile p) else runsOf p cs
termination_by cs.length
decreasing_by
  · exact Nat.lt_succ_of_le (List.dropWhile_suffix p).length_le
  · exact Nat.lt_succ_self _

section Runs

variable {p : Char → Bool} {c : Char} {cs gap run rest : List Char} {runs : List (List Char)}

theorem Runs.skip (hc : p c = false) (h : Runs p cs runs) : Runs p (c :: cs) runs := by
  cases h with
  | none hgap => exact .none (List.forall_mem_cons.mpr ⟨hc, hgap⟩)
  | run hgap hne hrun hhead hrest =>
    exact .run (List.forall_mem_cons.mpr ⟨hc, hgap⟩) hne hrun hhead hrest

theorem head?_dropWhile_eq_false : ∀ c ∈ (cs.dropWhile p).head?, p c = false := by
  intro c hc
  rw [Option.mem_def] at hc
  have hnot := List.head?_dropWhile_not p cs
  rw [hc] at hnot
  simpa using hnot

theorem runs_runsOf (p : Char → Bool) (cs : List Char) : Runs p cs (runsOf p cs) := by
  fun_induction runsOf p cs with
  | case1 => exact .none fun _ hc => absurd hc List.not_mem_nil
  | case2 c cs hc ih =>
    have hrun : ∀ d ∈ c :: cs.takeWhile p, p d :=
      List.forall_mem_cons.mpr ⟨hc, fun d hd => List.mem_takeWhile_imp hd⟩
    have hruns :=
      Runs.run (List.forall_mem_nil _) (List.cons_ne_nil _ _) hrun head?_dropWhile_eq_false ih
    rwa [List.nil_append, List.cons_append, List.takeWhile_append_dropWhile] at hruns
  | case3 c cs hc ih => exact ih.skip (Bool.eq_false_iff.mpr hc)

theorem runsOf_append_of_gap (hgap : ∀ c ∈ gap, p c = false) (cs : List Char) :
    runsOf p (gap ++ cs) = runsOf p cs := by
  induction gap with
  | nil => rfl
  | cons c gap ih =>
    obtain ⟨hc, hgap⟩ := List.forall_mem_cons.mp hgap
    rw [List.cons_append, runsOf, if_neg (Bool.eq_false_iff.mp hc), ih hgap]

theorem Runs.eq_runsOf (h : Runs p cs runs) : runs = runsOf p cs := by
  induction h with
  | @none gap hgap =>
    rw [← List.append_nil gap, runsOf_append_of_gap hgap, runsOf]
  | @run gap run rest runs hgap hne hrun hhead _ ih =>
    obtain ⟨c, run, rfl⟩ := List.exists_cons_of_ne_nil hne
    obtain ⟨hc, hrun⟩ := List.forall_mem_cons.mp hrun
    have hstop : rest.takeWhile p = [] ∧ rest.dropWhile p = rest := by
      cases rest with
      | nil => exact ⟨rfl, rfl⟩
      | cons d rest =>
        have hd : ¬ p d := Bool.eq_false_iff.mp (hhead d rfl)
        exact ⟨List.takeWhile_cons_of_neg hd, List.dropWhile_cons_of_neg hd⟩
    rw [runsOf_append_of_gap hgap, List.cons_append, runsOf, if_pos hc,
      List.takeWhile_append_of_pos hrun, List.dropWhile_append_of_pos hrun, hstop.1, hstop.2,
      List.append_nil, ih]

theorem runs_iff : Runs p cs runs ↔ runs = runsOf p cs :=
  ⟨Runs.eq_runsOf, fun h => h ▸ runs_runsOf p cs⟩

theorem Runs.ne_nil (h : Runs p cs runs) : ∀ run ∈ runs, run ≠ [] := by
  induction h with
  | none => exact fun _ hrun => absurd hrun List.not_mem_nil
  | run _ hne _ _ _ ih => exact List.forall_mem_cons.mpr ⟨hne, ih⟩

end Runs

def lowered (run : List Char) : List Char := run.flatMap Text.lowercase

section Slug

variable {separator cs gap run rest : List Char} {runs : List (List Char)} {started pending : Bool}

theorem lowercase_ne_nil (c : Char) : Text.lowercase c ≠ [] := by
  unfold Text.lowercase
  repeat' split
  all_goals exact List.cons_ne_nil _ _

theorem lowered_cons (c : Char) (run : List Char) :
    lowered (c :: run) = Text.lowercase c ++ lowered run := List.flatMap_cons

theorem lowered_ne_nil (h : run ≠ []) : lowered run ≠ [] := by
  obtain ⟨c, run, rfl⟩ := List.exists_cons_of_ne_nil h
  rw [lowered_cons]
  exact List.append_ne_nil_of_left_ne_nil (lowercase_ne_nil c) _

theorem slugFrom_gap (hgap : ∀ c ∈ gap, Text.isAlphanumeric c = false) (cs : List Char) :
    slugFrom separator started pending (gap ++ cs) =
      slugFrom separator started (pending || !gap.isEmpty) cs := by
  induction gap generalizing pending with
  | nil => rw [List.nil_append, List.isEmpty_nil, Bool.not_true, Bool.or_false]
  | cons c gap ih =>
    obtain ⟨hc, hgap⟩ := List.forall_mem_cons.mp hgap
    rw [List.cons_append, slugFrom, if_neg (Bool.eq_false_iff.mp hc), ih hgap, Bool.true_or,
      List.isEmpty_cons, Bool.not_false, Bool.or_true]

theorem slugFrom_inside (hrun : ∀ c ∈ run, Text.isAlphanumeric c) (cs : List Char) :
    slugFrom separator true false (run ++ cs) = lowered run ++ slugFrom separator true false cs := by
  induction run with
  | nil => rfl
  | cons c run ih =>
    obtain ⟨hc, hrun⟩ := List.forall_mem_cons.mp hrun
    rw [List.cons_append, slugFrom, if_pos hc, ih hrun, lowered_cons, List.append_assoc]
    rfl

theorem slugFrom_run (hne : run ≠ []) (hrun : ∀ c ∈ run, Text.isAlphanumeric c) (cs : List Char) :
    slugFrom separator started pending (run ++ cs) =
      (if started && pending then separator else []) ++
        (lowered run ++ slugFrom separator true false cs) := by
  obtain ⟨c, run, rfl⟩ := List.exists_cons_of_ne_nil hne
  obtain ⟨hc, hrun⟩ := List.forall_mem_cons.mp hrun
  rw [List.cons_append, slugFrom, if_pos hc, slugFrom_inside hrun, lowered_cons, List.append_assoc]

theorem slugFrom_after (h : Runs Text.isAlphanumeric cs runs)
    (hhead : ∀ c ∈ cs.head?, Text.isAlphanumeric c = false) :
    slugFrom separator true false cs = runs.flatMap (separator ++ lowered ·) := by
  induction h with
  | @none gap hgap => rw [← List.append_nil gap, slugFrom_gap hgap, slugFrom, List.flatMap_nil]
  | @run gap run rest runs hgap hne hrun hrest _ ih =>
    have hsome : gap ≠ [] := by
      rintro rfl
      obtain ⟨c, run, rfl⟩ := List.exists_cons_of_ne_nil hne
      exact Bool.eq_false_iff.mp (hhead c rfl) (hrun c List.mem_cons_self)
    rw [slugFrom_gap hgap, slugFrom_run hne hrun, ih hrest, List.flatMap_cons, List.append_assoc]
    simp [hsome]

theorem intercalate_cons (separator first : List Char) (others : List (List Char)) :
    separator.intercalate (first :: others) = first ++ others.flatMap (separator ++ ·) := by
  induction others generalizing first with
  | nil => rw [List.intercalate_singleton, List.flatMap_nil, List.append_nil]
  | cons second others ih =>
    rw [List.intercalate_cons_cons, ih, List.flatMap_cons, List.append_assoc, List.append_assoc]

theorem slugFrom_eq_intercalate (h : Runs Text.isAlphanumeric cs runs) :
    slugFrom separator false false cs = separator.intercalate (runs.map lowered) := by
  cases h with
  | none hgap => rw [← List.append_nil cs, slugFrom_gap hgap]; rfl
  | run hgap hne hrun hrest hruns =>
    rw [slugFrom_gap hgap, slugFrom_run hne hrun, slugFrom_after hruns hrest, List.map_cons,
      intercalate_cons, List.flatMap_map]
    rfl

end Slug

/-- The slug of a title is made of the maximal runs of alphanumeric characters of its visible text, in
lowercase and joined by the separator. No run disappears in lowercase, so a separator always stands between
two of them. -/
theorem slug_eq_intercalate_runs (title : List Element) (separator : String) :
    ∃ runs, (∀ others, Runs Text.isAlphanumeric (plainText title).toList others ↔ others = runs) ∧
      slug title separator =
        separator.intercalate (runs.map fun run => String.ofList (lowered run)) ∧
      ∀ run ∈ runs, lowered run ≠ [] := by
  have hruns := runs_runsOf Text.isAlphanumeric (plainText title).toList
  refine ⟨_, fun _ => runs_iff, ?_, fun run hrun => lowered_ne_nil (hruns.ne_nil run hrun)⟩
  rw [slug, slugFrom_eq_intercalate hruns, ← String.toList_inj, String.toList_ofList,
    String.toList_intercalate, List.map_map]
  congr 2
  funext run
  exact String.toList_ofList.symm

end Manuscript.Identifier
