import Manuscript.Proofs.LineCount
import Manuscript.Proofs.Merging

namespace Manuscript

open Pending

variable {x : Element} {line next : Line} {lines rest : List Line}

section Written

theorem writeLine_append (xs ys : Line) :
    writeLine (xs ++ ys) = writeLine xs >>= fun s => (s ++ ·) <$> writeLine ys := by
  induction xs with
  | nil =>
    have hsame : ("" ++ ·) = (id : String → String) := funext fun t => String.empty_append
    rw [List.nil_append, writeLine, pure_bind, hsame, id_map]
  | cons x xs ih =>
    rw [List.cons_append]
    cases hx : x.isText with
    | true =>
      obtain ⟨s, rfl⟩ := eq_text_of_isText hx
      simp [writeLine_text, ih, ← String.append_assoc]
    | false => simp [writeLine_other hx, ih, ← String.append_assoc]

theorem serialize_cons_cons (line next : Line) (rest : List Line) :
    serialize (line :: next :: rest) =
      writeLine line >>= fun s => (s ++ "\n" ++ ·) <$> serialize (next :: rest) := by
  simp [serialize, String.intercalate_cons_cons]

theorem serialize_eq_writeLine (lines : List Line) :
    serialize lines = writeLine ([.text "\n"].intercalate lines) := by
  induction lines with
  | nil => rfl
  | cons line rest ih =>
    cases rest with
    | nil => simp [serialize]
    | cons next rest =>
      rw [serialize_cons_cons, ih, List.intercalate_cons_cons, List.append_assoc, writeLine_append,
        List.singleton_append, writeLine_text]
      simp [← String.append_assoc]

end Written

section Split

theorem splitLines_cons (line : Line) (lines : List Line) :
    splitLines (line :: lines) = splitLine line ++ splitLines lines :=
  List.flatMap_cons

theorem splitLines_ne_nil (h : lines ≠ []) : splitLines lines ≠ [] := by
  obtain ⟨line, rest, rfl⟩ := List.exists_cons_of_ne_nil h
  rw [splitLines_cons]
  exact List.append_ne_nil_of_left_ne_nil (splitLine_ne_nil line) _

theorem unsplit_of_mem_splitLines : ∀ part ∈ splitLines lines, Unsplit part :=
  List.forall_mem_flatMap.mpr fun _ _ => unsplit_of_mem_splitLine

theorem Unsplit.text {s : String} (h : Unsplit line) (hs : .text s ∈ line) :
    s ≠ "" ∧ '\n' ∉ s.toList := by
  refine ⟨fun hempty => h.2 (hempty ▸ hs), fun hmem => h.1 ?_⟩
  exact (infix_outline_of_mem hs).subset (List.mem_map_of_mem hmem)

theorem splitLines_of_unsplit (h : ∀ line ∈ lines, Unsplit line) : splitLines lines = lines := by
  induction lines with
  | nil => rfl
  | cons line rest ih =>
    obtain ⟨hline, hrest⟩ := List.forall_mem_cons.mp h
    rw [splitLines_cons, splitLine_of_unsplit hline, ih hrest, List.singleton_append]

theorem length_splitLines (lines : List Line) :
    (splitLines lines).length = lines.length + (outline lines.flatten).count (some '\n') := by
  induction lines with
  | nil => rfl
  | cons line rest ih =>
    rw [splitLines_cons, List.length_append, length_splitLine, ih, List.flatten_cons, outline_append,
      List.count_append, List.length_cons]
    omega

theorem setAside_splitLines (lines : List Line) : setAside (splitLines lines) = setAside lines := by
  rw [setAside, ← gather_untext, gather_splitLines fun _ => rfl, gather_untext, setAside]

theorem setAside_cons (line : Line) (rest : List Line) :
    setAside (line :: rest) = line.filter (!·.isText) ++ setAside rest := by
  rw [setAside, List.flatten_cons, List.filter_append, setAside]

theorem setAside_intercalate (lines : List Line) :
    ([.text "\n"].intercalate lines).filter (!·.isText) = setAside lines := by
  induction lines with
  | nil => rfl
  | cons line rest ih =>
    cases rest with
    | nil => rw [List.intercalate_singleton, setAside, List.flatten_singleton]
    | cons next rest =>
      rw [List.intercalate_cons_cons, List.filter_append, List.filter_append, ih, setAside_cons line,
        List.filter_cons_of_neg (by simp [Element.isText]), List.filter_nil, List.append_nil]

theorem outlines_append {before after : List Line} (hbefore : before ≠ []) (hafter : after ≠ []) :
    outlines (before ++ after) = outlines before ++ some '\n' :: outlines after := by
  induction before with
  | nil => exact absurd rfl hbefore
  | cons line rest ih =>
    rw [List.cons_append, outlines_cons (List.append_ne_nil_of_right_ne_nil rest hafter)]
    by_cases hrest : rest = []
    · rw [hrest, outlines_singleton, List.nil_append]
    · rw [ih hrest, outlines_cons hrest, List.append_assoc, List.cons_append]

theorem outlines_splitLines (lines : List Line) : outlines (splitLines lines) = outlines lines := by
  induction lines with
  | nil => rfl
  | cons line rest ih =>
    rw [splitLines_cons]
    by_cases hrest : rest = []
    · rw [hrest, outlines_singleton]
      exact (congrArg outlines (List.append_nil _)).trans (outlines_splitLine line)
    · rw [outlines_append (splitLine_ne_nil line) (splitLines_ne_nil hrest), outlines_splitLine, ih,
        outlines_cons hrest]

theorem merge_intercalate_splitLines (lines : List Line) :
    merge ([.text "\n"].intercalate (splitLines lines)) = merge ([.text "\n"].intercalate lines) := by
  refine merge_congr_outline ?_ ?_
  · rw [setAside_intercalate, setAside_splitLines, setAside_intercalate]
  · rw [outline_intercalate, outlines_splitLines, outline_intercalate]

theorem serialize_splitLines (lines : List Line) : serialize (splitLines lines) = serialize lines := by
  rw [serialize_eq_writeLine, ← writeLine_merge, merge_intercalate_splitLines, writeLine_merge,
    ← serialize_eq_writeLine]

end Split

/-- Splitting undoes joining. There is one more line for every line feed in the texts, no text is empty or has a
line feed any longer, and the lines are joined to the same sequence and written as the same text as before. To split
them again does nothing. -/
theorem splitLines_undoes_joining (lines : List Line) :
    (splitLines lines).length = lines.length + (outline lines.flatten).count (some '\n') ∧
    (∀ line ∈ splitLines lines, ∀ s, .text s ∈ line → s ≠ "" ∧ '\n' ∉ s.toList) ∧
    merge ([.text "\n"].intercalate (splitLines lines)) = merge ([.text "\n"].intercalate lines) ∧
    serialize (splitLines lines) = serialize lines ∧
    setAside (splitLines lines) = setAside lines ∧
    splitLines (splitLines lines) = splitLines lines :=
  ⟨length_splitLines lines, fun line hline _ hs => (unsplit_of_mem_splitLines line hline).text hs,
    merge_intercalate_splitLines lines, serialize_splitLines lines, setAside_splitLines lines,
    splitLines_of_unsplit unsplit_of_mem_splitLines⟩

def brokenLines : List Line :=
  [[.text "a\n\nb ", .lineBreak, .text "\nc\n"], [], [.text "\n"]]

theorem splitLines_undoes_joining_broken :
    splitLines brokenLines =
      [[.text "a"], [], [.text "b ", .lineBreak], [.text "c"], [], [], [], []] ∧
    (splitLines brokenLines).length = 3 + 5 ∧ [.text "c"] ∈ splitLines brokenLines ∧
    ("c" ≠ "" ∧ '\n' ∉ "c".toList) ∧
    merge ([.text "\n"].intercalate (splitLines brokenLines)) =
      [.text "a\n\nb ", .lineBreak, .text "\nc\n\n\n\n"] := by
  obtain ⟨hlength, htexts, hjoined, -⟩ := splitLines_undoes_joining brokenLines
  have hsplit : splitLines brokenLines =
      [[.text "a"], [], [.text "b ", .lineBreak], [.text "c"], [], [], [], []] := by cbv
  have hmem : [.text "c"] ∈ splitLines brokenLines := by simp [hsplit]
  exact ⟨hsplit, hlength.trans (by decide), hmem, htexts _ hmem "c" List.mem_cons_self,
    hjoined.trans (by cbv)⟩

end Manuscript
