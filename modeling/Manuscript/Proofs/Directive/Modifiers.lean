import Manuscript.Proofs.Directive.Acceptance

namespace Manuscript.Directive

inductive Modification where
  | append (step : Step)
  | prepend (step : Step)
  | remove (step : Step)
  deriving DecidableEq, Repr

namespace Modification

def token : Modification → Token
  | append step => .append step
  | prepend step => .prepend step
  | remove step => .remove step

def edit : Modification → List Step → List Step
  | append step, steps => steps ++ [step]
  | prepend step, steps => step :: steps
  | remove step, steps => steps.filter (· ≠ step)

theorem edit_sublist {steps steps' : List Step} (m : Modification) (h : steps.Sublist steps') :
    (m.edit steps).Sublist (m.edit steps') := by
  cases m with
  | append step => exact h.append_right [step]
  | prepend step => exact h.cons_cons step
  | remove step => exact h.filter _

end Modification

def edited (steps : List Step) (edits : List Modification) : List Step :=
  edits.foldl (fun steps m => m.edit steps) steps

def seeded (defaults steps : List Step) : List Step :=
  if steps.isEmpty then defaults else steps

def gathered (defaults steps : List Step) (edits : List Modification) : List Step :=
  edits.foldl (fun steps m => m.edit (seeded defaults steps)) steps

def Settles (defaults steps : List Step) (edits : List Modification) : Prop :=
  ∀ before m after, edits = before ++ m :: after → gathered defaults steps before = [] →
    ∀ step ∈ defaults, .remove step ∈ m :: after

variable {defaults steps steps' : List Step} {edits rest : List Modification} {m : Modification}
  {step : Step} {directive : String}

theorem seeded_of_ne_nil (h : steps ≠ []) : seeded defaults steps = steps :=
  if_neg fun hnone => h (List.isEmpty_iff.mp hnone)

theorem edited_cons : edited steps (m :: rest) = edited (m.edit steps) rest := rfl

theorem gathered_cons :
    gathered defaults steps (m :: rest) = gathered defaults (m.edit (seeded defaults steps)) rest :=
  rfl

theorem settles_nil : Settles defaults steps [] :=
  fun before m after heq => absurd heq.symm (by simp)

theorem settles_cons : Settles defaults steps (m :: rest) ↔
    (steps = [] → ∀ step ∈ defaults, .remove step ∈ m :: rest) ∧
      Settles defaults (m.edit (seeded defaults steps)) rest := by
  constructor
  · intro h
    refine ⟨h [] m rest rfl, fun before m' after heq hnone => ?_⟩
    exact h (m :: before) m' after (by rw [heq, List.cons_append]) hnone
  · rintro ⟨hfirst, hrest⟩ before m' after heq hnone
    cases before with
    | nil =>
      obtain ⟨rfl, rfl⟩ := List.cons.inj heq
      exact hfirst hnone
    | cons first before =>
      obtain ⟨rfl, htail⟩ := List.cons.inj heq
      exact hrest before m' after htail hnone

theorem exists_edited_eq (edits : List Modification) :
    ∃ before after, ∀ steps, edited steps edits =
      before ++ steps.filter (fun step => .remove step ∉ edits) ++ after := by
  induction edits with
  | nil => exact ⟨[], [], fun steps => by simp [edited]⟩
  | cons m rest ih =>
    obtain ⟨before, after, hrest⟩ := ih
    cases m with
    | append added =>
      refine ⟨before, [added].filter (fun step => .remove step ∉ rest) ++ after, fun steps => ?_⟩
      simp [edited_cons, hrest, Modification.edit]
    | prepend added =>
      refine ⟨before ++ [added].filter (fun step => .remove step ∉ rest), after, fun steps => ?_⟩
      rw [edited_cons, hrest, Modification.edit, ← List.singleton_append, List.filter_append]
      simp
    | remove removed =>
      refine ⟨before, after, fun steps => ?_⟩
      rw [edited_cons, hrest, Modification.edit, List.filter_filter]
      simp [Bool.and_comm]

theorem edited_eq_iff : edited defaults edits = edited [] edits ↔
    ∀ step ∈ defaults, .remove step ∈ edits := by
  obtain ⟨before, after, h⟩ := exists_edited_eq edits
  rw [h, h, List.append_left_inj, List.append_right_inj, List.filter_nil, List.filter_eq_nil_iff]
  simp

theorem edited_sublist_edited (edits : List Modification) (h : steps.Sublist steps') :
    (edited steps edits).Sublist (edited steps' edits) := by
  induction edits generalizing steps steps' with
  | nil => exact h
  | cons m rest ih => exact ih (m.edit_sublist h)

theorem edited_sublist_gathered (edits : List Modification) (h : steps.Sublist steps') :
    (edited steps edits).Sublist (gathered defaults steps' edits) := by
  induction edits generalizing steps steps' with
  | nil => exact h
  | cons m rest ih =>
    refine ih (m.edit_sublist ?_)
    by_cases hnone : steps' = []
    · rw [hnone, List.sublist_nil] at h
      exact h ▸ List.nil_sublist _
    · rwa [seeded_of_ne_nil hnone]

theorem gathered_eq_edited_iff :
    gathered defaults steps edits = edited steps edits ↔ Settles defaults steps edits := by
  induction edits generalizing steps with
  | nil => exact iff_of_true rfl settles_nil
  | cons m rest ih =>
    rw [settles_cons, ← ih, gathered_cons]
    by_cases hsteps : steps = []
    · rw [hsteps, seeded, List.isEmpty_nil, if_pos rfl, ← edited_eq_iff, edited_cons, edited_cons]
      constructor
      · intro h
        -- Both the defaults and what the rest brings in again can only add steps.
        have hmore : (edited (m.edit []) rest).Sublist (edited (m.edit defaults) rest) :=
          edited_sublist_edited rest (m.edit_sublist (List.nil_sublist defaults))
        have hagain : (edited (m.edit defaults) rest).Sublist
            (gathered defaults (m.edit defaults) rest) :=
          edited_sublist_gathered rest (List.Sublist.refl _)
        have hsame : edited (m.edit defaults) rest = edited (m.edit []) rest :=
          (h ▸ hagain).antisymm hmore
        exact ⟨fun _ => hsame, h.trans hsame.symm⟩
      · rintro ⟨hsame, hrest⟩
        exact hrest.trans (hsame rfl)
    · rw [seeded_of_ne_nil hsteps, edited_cons]
      exact (and_iff_right fun hnone => absurd hnone hsteps).symm

theorem Modification.mem_of_mem_edit (h : step ∈ m.edit steps) :
    step ∈ steps ∨ m = .append step ∨ m = .prepend step := by
  cases m with
  | append added =>
    rcases List.mem_append.mp h with h | h
    · exact .inl h
    · exact .inr (.inl (List.mem_singleton.mp h ▸ rfl))
  | prepend added =>
    rcases List.mem_cons.mp h with rfl | h
    · exact .inr (.inr rfl)
    · exact .inl h
  | remove removed => exact .inl (List.mem_of_mem_filter h)

theorem mem_of_mem_edited (h : step ∈ edited steps edits) :
    step ∈ steps ∨ .append step ∈ edits ∨ .prepend step ∈ edits := by
  induction edits generalizing steps with
  | nil => exact .inl h
  | cons m rest ih =>
    obtain hstep | happend | hprepend := ih h
    · refine (Modification.mem_of_mem_edit hstep).imp_right ?_
      rintro (rfl | rfl)
      · exact .inl List.mem_cons_self
      · exact .inr List.mem_cons_self
    · exact .inr (.inl (List.mem_cons_of_mem m happend))
    · exact .inr (.inr (List.mem_cons_of_mem m hprepend))

theorem not_mem_edited_of_remove {before after : List Modification}
    (h : edits = before ++ .remove step :: after) (happend : .append step ∉ after)
    (hprepend : .prepend step ∉ after) : step ∉ edited steps edits := by
  rw [h, edited, List.foldl_append]
  intro (hmem : step ∈ edited (edited steps before |>.filter (· ≠ step)) after)
  obtain hstep | hadded | hadded := mem_of_mem_edited hmem
  · simp at hstep
  · exact happend hadded
  · exact hprepend hadded

theorem foldl_token (edits : List Modification) (selection : Selection) :
    ((edits.map Modification.token).foldl (Token.apply defaults) selection).steps =
      gathered defaults selection.steps edits := by
  induction edits generalizing selection with
  | nil => rfl
  | cons m rest ih =>
    rw [List.map_cons, List.foldl_cons, ih, gathered_cons]
    cases m <;> rfl

theorem select_of_edits (h : List.Forall₂ Says (tokens directive) (edits.map Modification.token)) :
    select defaults directive =
      .ok ((if Text.trim directive = "" then defaults else gathered defaults [] edits) ++
        [.splitLines]) := by
  split
  · next hblank => exact select_of_blank hblank
  · next hblank => exact (select_eq_ok_iff hblank).mpr ⟨_, h, by rw [foldl_token]⟩

theorem gathered_nil_eq_edited_iff : gathered defaults [] edits = edited defaults edits ↔
    (edits = [] → defaults = []) ∧
      ∀ before m after, edits = before ++ m :: after → before ≠ [] →
        gathered defaults [] before = [] → ∀ step ∈ defaults, .remove step ∈ m :: after := by
  cases edits with
  | nil =>
    refine ⟨fun h => ⟨fun _ => h.symm, fun before m after heq => ?_⟩, fun h => (h.1 rfl).symm⟩
    exact absurd heq.symm (by simp)
  | cons m rest =>
    change gathered defaults (m.edit defaults) rest = edited (m.edit defaults) rest ↔ _
    rw [gathered_eq_edited_iff]
    constructor
    · refine fun h => ⟨fun hnone => absurd hnone (List.cons_ne_nil m rest), ?_⟩
      intro before m' after heq hbefore hnone
      cases before with
      | nil => exact absurd rfl hbefore
      | cons first before =>
        obtain ⟨rfl, htail⟩ := List.cons.inj heq
        exact h before m' after htail hnone
    · rintro ⟨-, h⟩ before m' after heq hnone
      exact h (m :: before) m' after (by rw [heq, List.cons_append]) (List.cons_ne_nil _ _) hnone

/-- The result is that of editing the defaults exactly when the defaults never come back, or when the
rest of the directive removes all of them again. A directive of commas and blanks has no edit to bring
the defaults in. -/
theorem select_modifications
    (h : List.Forall₂ Says (tokens directive) (edits.map Modification.token)) :
    select defaults directive =
        .ok ((if Text.trim directive = "" then defaults else gathered defaults [] edits) ++
          [.splitLines]) ∧
      (select defaults directive = .ok (edited defaults edits ++ [.splitLines]) ↔
        (edits = [] → Text.trim directive = "" ∨ defaults = []) ∧
          ∀ before m after, edits = before ++ m :: after → before ≠ [] →
            gathered defaults [] before = [] → ∀ step ∈ defaults, .remove step ∈ m :: after) ∧
      ∀ before step after, edits = before ++ .remove step :: after → .append step ∉ after →
        .prepend step ∉ after → step ∉ edited defaults edits := by
  refine ⟨select_of_edits h, ?_, fun before step after => not_mem_edited_of_remove⟩
  rw [select_of_edits h, Except.ok.injEq, List.append_left_inj]
  split
  · next hblank =>
    rw [tokens_of_blank hblank, List.forall₂_nil_left_iff, List.map_eq_nil_iff] at h
    subst h
    refine iff_of_true rfl ⟨fun _ => .inl hblank, fun before m after heq => ?_⟩
    exact absurd heq.symm (by simp)
  · next hblank => rw [gathered_nil_eq_edited_iff, or_iff_right hblank]

theorem select_modifications_listing :
    List.Forall₂ Says (tokens "-callouts, +quotes")
        ([.remove .callouts, .append .quotes].map Modification.token) ∧
      select verbatimSteps "-callouts, +quotes" = .ok [.specials, .quotes, .splitLines] := by
  have h : List.Forall₂ Says (tokens "-callouts, +quotes")
      ([.remove .callouts, .append .quotes].map Modification.token) := by decide
  exact ⟨h, (select_modifications h).1.trans (congrArg Except.ok (by decide))⟩

theorem select_removed_again :
    List.Forall₂ Says (tokens "-callouts,-specialchars,+quotes")
        ([.remove .callouts, .remove .specials, .append .quotes].map Modification.token) ∧
      edited verbatimSteps [.remove .callouts, .remove .specials, .append .quotes] = [.quotes] ∧
      select verbatimSteps "-callouts,-specialchars,+quotes" =
        .ok [.callouts, .specials, .quotes, .splitLines] := by
  have h : List.Forall₂ Says (tokens "-callouts,-specialchars,+quotes")
      ([.remove .callouts, .remove .specials, .append .quotes].map Modification.token) := by decide
  exact ⟨h, by decide, (select_of_edits h).trans (congrArg Except.ok (by decide))⟩

end Manuscript.Directive
