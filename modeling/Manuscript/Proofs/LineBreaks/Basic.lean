import Manuscript.Proofs.Splitting

namespace Manuscript

def Unbroken (elements : List Element) : Prop := Everywhere (· ≠ .lineBreak) elements

def EndsAtBreak (line : Line) : Prop :=
  ∃ before, Unbroken before ∧ (line = before ∨ line = before ++ [.lineBreak])

def BreaksBefore (next : Option (Option Char) → Prop) : Line → Prop
  | [] => True
  | .lineBreak :: rest => next (outline rest).head? ∧ BreaksBefore next rest
  | x :: rest => x.Throughout (· ≠ .lineBreak) ∧ BreaksBefore next rest

def AtLineFeed (next : Option (Option Char)) : Prop :=
  next = none ∨ next = some (some '\n')

section

variable {next : Option (Option Char) → Prop} {x : Element} {rest xs line : Line}

theorem breaksBefore_cons (hx : x ≠ .lineBreak) : BreaksBefore next (x :: rest) ↔
    x.Throughout (· ≠ .lineBreak) ∧ BreaksBefore next rest := by
  rw [BreaksBefore.eq_3 _ _ _ hx]

@[simp] theorem breaksBefore_text_cons (s : String) :
    BreaksBefore next (.text s :: rest) ↔ BreaksBefore next rest := by
  rw [breaksBefore_cons (x := .text s) nofun, throughout_text, and_iff_right nofun]

@[simp] theorem breaksBefore_placeholder_cons (reference : UInt32) :
    BreaksBefore next (.placeholder reference :: rest) ↔ BreaksBefore next rest := by
  rw [breaksBefore_cons (x := .placeholder reference) nofun, throughout_of_leaf rfl rfl,
    and_iff_right nofun]

theorem breaksBefore_pushText (s : String) :
    BreaksBefore next (pushText s xs) ↔ BreaksBefore next xs := by
  unfold pushText
  split
  · rw [breaksBefore_text_cons, breaksBefore_text_cons]
  · split
    · rfl
    · exact breaksBefore_text_cons s

theorem breaksBefore_merge : BreaksBefore next (merge xs) ↔ BreaksBefore next xs := by
  fun_induction merge xs with
  | case1 => rfl
  | case2 s rest ih => rw [breaksBefore_pushText, ih, breaksBefore_text_cons]
  | case3 x rest _ ih =>
    by_cases hx : x = .lineBreak
    · rw [hx, BreaksBefore, BreaksBefore, outline_merge, ih]
    · rw [breaksBefore_cons hx, breaksBefore_cons hx, ih]

theorem breaksBefore_fragment_append (s : String) :
    BreaksBefore next (fragment s ++ xs) ↔ BreaksBefore next xs := by
  rw [fragment]
  split
  · rfl
  · exact breaksBefore_text_cons s

theorem breaksBefore_never : BreaksBefore (fun _ => False) xs ↔ Unbroken xs := by
  induction xs with
  | nil => exact iff_of_true trivial everywhere_nil
  | cons x rest ih =>
    rw [Unbroken, everywhere_cons]
    by_cases hx : x = .lineBreak
    · rw [hx, BreaksBefore, false_and, false_iff]
      exact fun h => h.1.1 rfl
    · rw [breaksBefore_cons hx, ih]
      rfl

theorem endsAtBreak_cons (hx : x ≠ .lineBreak) : EndsAtBreak (x :: rest) ↔
    x.Throughout (· ≠ .lineBreak) ∧ EndsAtBreak rest := by
  constructor
  · rintro ⟨before, hbefore, hline⟩
    cases before with
    | nil =>
      rcases hline with h | h
      · cases h
      · exact absurd (List.cons.inj h).1 hx
    | cons y before =>
      obtain ⟨hy, hrest⟩ := everywhere_cons.mp hbefore
      rcases hline with h | h
      · obtain ⟨rfl, rfl⟩ := List.cons.inj h
        exact ⟨hy, rest, hrest, .inl rfl⟩
      · obtain ⟨rfl, rfl⟩ := List.cons.inj h
        exact ⟨hy, before, hrest, .inr rfl⟩
  · rintro ⟨hx, before, hbefore, hline⟩
    refine ⟨x :: before, everywhere_cons.mpr ⟨hx, hbefore⟩, hline.imp ?_ ?_⟩
    · rintro rfl
      rfl
    · rintro rfl
      rfl

theorem endsAtBreak_lineBreak_cons : EndsAtBreak (.lineBreak :: rest) ↔ rest = [] := by
  constructor
  · rintro ⟨before, hbefore, hline⟩
    cases before with
    | nil =>
      rcases hline with h | h
      · cases h
      · exact (List.cons.inj h).2
    | cons y before =>
      have hy : y = .lineBreak := by
        rcases hline with h | h <;> exact (List.cons.inj h).1.symm
      exact absurd hy (everywhere_cons.mp hbefore).1.1
  · rintro rfl
    exact ⟨[], everywhere_nil, .inr rfl⟩

theorem endsAtBreak_iff (h : .text "" ∉ line) :
    EndsAtBreak line ↔ BreaksBefore (· = none) line := by
  induction line with
  | nil => exact iff_of_true ⟨[], everywhere_nil, .inl rfl⟩ trivial
  | cons x rest ih =>
    rw [List.mem_cons, not_or] at h
    by_cases hx : x = .lineBreak
    · rw [hx, endsAtBreak_lineBreak_cons, BreaksBefore, List.head?_eq_none_iff]
      exact ⟨fun hnil => hnil ▸ ⟨rfl, trivial⟩, fun ⟨hnil, _⟩ => eq_nil_of_outline h.2 hnil⟩
    · rw [endsAtBreak_cons hx, breaksBefore_cons hx, ih h.2]

end

section Splitting

variable {next : Option (Option Char) → Prop} {line first : Line} {lines others : List Line}

theorem breaksBefore_prependTo {start : Line}
    (hstart : ∀ xs, BreaksBefore next (start ++ xs) ↔ BreaksBefore next xs) :
    (∀ part ∈ prependTo start lines, BreaksBefore next part) ↔
      ∀ part ∈ lines, BreaksBefore next part := by
  cases lines with
  | nil =>
    have hnil := (hstart []).mpr trivial
    rw [List.append_nil] at hnil
    exact iff_of_true (List.forall_mem_singleton.mpr hnil) fun _ h => absurd h List.not_mem_nil
  | cons line rest => rw [prependTo, List.forall_mem_cons, hstart, ← List.forall_mem_cons]

theorem breaksBefore_joinLines (parts : List String) :
    (∀ part ∈ joinLines (parts.map fragment) lines, BreaksBefore next part) ↔
      ∀ part ∈ lines, BreaksBefore next part := by
  induction parts with
  | nil => rfl
  | cons part parts ih =>
    cases parts with
    | nil => exact breaksBefore_prependTo fun _ => breaksBefore_fragment_append part
    | cons other parts =>
      have hpart : BreaksBefore next (fragment part ++ []) :=
        (breaksBefore_fragment_append part).mpr trivial
      rw [List.append_nil] at hpart
      change (∀ line ∈ fragment part :: joinLines ((other :: parts).map fragment) lines, _) ↔ _
      rw [List.forall_mem_cons, and_iff_right hpart, ih]

theorem atLineFeed_head_outlines (hfirst : some '\n' ∉ outline first) :
    AtLineFeed (outlines (first :: others)).head? ↔ (outline first).head? = none := by
  cases houtline : outline first with
  | nil =>
    refine iff_of_true ?_ rfl
    by_cases hothers : others = []
    · rw [hothers, outlines_singleton, houtline]
      exact .inl rfl
    · rw [outlines_cons hothers, houtline]
      exact .inr rfl
  | cons o rest =>
    rw [houtline] at hfirst
    have hhead : (outlines (first :: others)).head? = some o := by
      by_cases hothers : others = []
      · rw [hothers, outlines_singleton, houtline]
        rfl
      · rw [outlines_cons hothers, houtline]
        rfl
    rw [hhead]
    refine iff_of_false ?_ nofun
    rintro (h | h)
    · cases h
    · exact hfirst (Option.some.inj h ▸ List.mem_cons_self)

theorem breaksBefore_splitLine : (∀ part ∈ splitLine line, BreaksBefore (· = none) part) ↔
    BreaksBefore AtLineFeed line := by
  fun_induction splitLine line with
  | case1 => exact iff_of_true (List.forall_mem_singleton.mpr trivial) trivial
  | case2 s rest ih => rw [breaksBefore_joinLines, ih, breaksBefore_text_cons]
  | case3 x rest _ ih =>
    obtain ⟨first, others, hsplit, hfirst, -, houtlines⟩ := exists_splitLine_eq rest
    rw [hsplit, List.forall_mem_cons] at ih
    rw [hsplit, prependTo, List.forall_mem_cons, List.singleton_append]
    by_cases hx : x = .lineBreak
    · rw [hx, BreaksBefore, BreaksBefore, and_assoc, ih, ← houtlines,
        atLineFeed_head_outlines hfirst.1]
    · rw [breaksBefore_cons hx, breaksBefore_cons hx, and_assoc, ih]

theorem endsAtBreak_splitLine : (∀ part ∈ splitLine line, EndsAtBreak part) ↔
    BreaksBefore AtLineFeed line := by
  rw [← breaksBefore_splitLine]
  exact forall₂_congr fun part hpart => endsAtBreak_iff (unsplit_of_mem_splitLine part hpart).2

end Splitting

end Manuscript
