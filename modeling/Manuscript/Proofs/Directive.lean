import Manuscript.Proofs.Outcome
import Manuscript.Substitution.Directive

namespace Manuscript

theorem Step.mem_named_of_ofName? {name : String} {step : Step} (h : ofName? name = some step) :
    step ∈ named := by
  rw [ofName?] at h
  split at h
  · cases h
    decide
  · exact List.mem_of_find?_eq_some h

theorem Step.eq_splitLines_of_rule? {step : Step} (h : step.rule? = none) : step = splitLines := by
  cases step <;> first | rfl | cases h

theorem Step.splitLines_not_mem_named : splitLines ∉ named := by decide

theorem normalSteps_subset : normalSteps ⊆ Step.named := by decide

theorem BlockKind.steps_subset (kind : BlockKind) : kind.steps ⊆ Step.named := by
  cases kind <;> decide

theorem paragraphSteps_subset (attributes : Attributes) :
    paragraphSteps attributes ⊆ Step.named := by
  rw [paragraphSteps]
  split
  · exact BlockKind.listing.steps_subset
  · exact normalSteps_subset

namespace Directive

def Token.steps : Token → List Step
  | normal => normalSteps
  | bare step => [step]
  | append step => [step]
  | prepend step => [step]
  | remove step => [step]

variable {defaults steps : List Step}

theorem steps_subset_of_step? {cs : List Char} {make : Step → Token}
    (hmake : ∀ step, (make step).steps = [step]) {token : Token}
    (h : (step? cs).map make = some token) : token.steps ⊆ Step.named := by
  obtain ⟨step, hstep, rfl⟩ := Option.map_eq_some_iff.mp h
  rw [hmake, List.cons_subset]
  exact ⟨Step.mem_named_of_ofName? hstep, List.nil_subset _⟩

theorem steps_subset_of_modifier? {cs : List Char} {token : Token}
    (h : modifier? cs = some token) : token.steps ⊆ Step.named := by
  unfold modifier? at h
  split at h
  · cases h
  · split at h
    · exact steps_subset_of_step? (fun _ => rfl) h
    · split at h
      · exact steps_subset_of_step? (fun _ => rfl) h
      · split at h
        · exact steps_subset_of_step? (fun _ => rfl) h
        · exact steps_subset_of_step? (fun _ => rfl) h

theorem steps_subset_of_read {word : String} {token : Token} (h : read word = .ok token) :
    token.steps ⊆ Step.named := by
  rw [read, Token.ofString?] at h
  split at h
  · next t ht =>
    cases h
    split at ht
    · cases ht
      exact normalSteps_subset
    · exact steps_subset_of_modifier? ht
  · cases h

theorem subset_edit {selection : Selection} {f : List Step → List Step} {allowed : List Step}
    (hselection : selection.steps ⊆ allowed) (hdefaults : defaults ⊆ allowed)
    (hf : ∀ steps, steps ⊆ allowed → f steps ⊆ allowed) :
    (selection.edit defaults f).steps ⊆ allowed := by
  refine hf _ ?_
  split
  · exact hdefaults
  · exact hselection

theorem subset_apply {selection : Selection} {token : Token} {allowed : List Step}
    (hselection : selection.steps ⊆ allowed) (hdefaults : defaults ⊆ allowed)
    (htoken : token.steps ⊆ allowed) :
    (token.apply defaults selection).steps ⊆ allowed := by
  have hnamed {added : List Step} (h : added ⊆ allowed) :
      (selection.named added).steps ⊆ allowed := by
    rw [Selection.named]
    split
    · exact List.append_subset.mpr ⟨hselection, h⟩
    · exact h
  cases token with
  | normal => exact hnamed htoken
  | bare step => exact hnamed htoken
  | append step =>
    exact subset_edit hselection hdefaults fun _ h => List.append_subset.mpr ⟨h, htoken⟩
  | prepend step =>
    exact subset_edit hselection hdefaults fun _ h =>
      List.append_subset.mpr ⟨htoken, h⟩
  | remove step =>
    exact subset_edit hselection hdefaults fun _ h => List.Subset.trans List.filter_sublist.subset h

theorem subset_foldl_apply {tokens : List Token} {selection : Selection} {allowed : List Step}
    (hselection : selection.steps ⊆ allowed) (hdefaults : defaults ⊆ allowed)
    (htokens : ∀ token ∈ tokens, token.steps ⊆ allowed) :
    (tokens.foldl (Token.apply defaults) selection).steps ⊆ allowed := by
  induction tokens generalizing selection with
  | nil => exact hselection
  | cons token rest ih =>
    obtain ⟨htoken, hrest⟩ := List.forall_mem_cons.mp htokens
    exact ih (subset_apply hselection hdefaults htoken) hrest

theorem exists_of_select {directive : String} (hdefaults : defaults ⊆ Step.named)
    (h : select defaults directive = .ok steps) :
    ∃ before, steps = before ++ [.splitLines] ∧ before ⊆ Step.named := by
  rw [select] at h
  split at h
  · cases h
    exact ⟨defaults, rfl, hdefaults⟩
  · obtain ⟨edits, hedits, h⟩ := bind_eq_ok.mp h
    cases h
    refine ⟨_, rfl, subset_foldl_apply (List.nil_subset _) hdefaults ?_⟩
    exact forall_of_mapM_ok (p := fun _ => True) (fun _ _ _ => steps_subset_of_read) hedits
      fun _ _ => trivial

theorem exists_of_forBlock {kind : BlockKind} {attributes : Attributes}
    (h : forBlock kind attributes = .ok steps) :
    ∃ before, steps = before ++ [.splitLines] ∧ .splitLines ∉ before := by
  rw [forBlock] at h
  cases hselect : selectFor kind.steps attributes with
  | error fault => rw [hselect] at h; cases h
  | ok selected =>
    rw [hselect] at h
    cases h
    obtain ⟨before, rfl, hnamed⟩ := exists_of_select kind.steps_subset hselect
    exact ⟨before, rfl, fun hmem => Step.splitLines_not_mem_named (hnamed hmem)⟩

theorem exists_of_forParagraph {attributes : Attributes}
    (h : forParagraph attributes = .ok steps) :
    ∃ before, steps = before ++ [.splitLines] ∧ .splitLines ∉ before := by
  obtain ⟨before, rfl, hnamed⟩ := exists_of_select (paragraphSteps_subset attributes) h
  exact ⟨before, rfl, fun hmem => Step.splitLines_not_mem_named (hnamed hmem)⟩

end Directive

end Manuscript
