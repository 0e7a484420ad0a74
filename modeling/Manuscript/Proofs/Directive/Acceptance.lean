import Manuscript.Proofs.Directive
import Manuscript.Proofs.Reserved.Clean
import Mathlib.Data.List.Forall2
import Mathlib.Data.List.TakeWhile

namespace Manuscript

inductive Step.Called : String → Step → Prop where
  | name {step : Step} (h : step ∈ named) : Called step.name step
  | specials : Called "specialchars" .specials

theorem Step.ofName?_eq_some_iff {name : String} {step : Step} :
    ofName? name = some step ↔ Called name step := by
  constructor
  · intro h
    have hnamed := mem_named_of_ofName? h
    rw [ofName?] at h
    split at h
    · next heq =>
      cases h
      exact heq ▸ .specials
    · have hname := List.find?_some h
      exact eq_of_beq hname ▸ .name hnamed
  · rintro (⟨h⟩ | ⟨⟩)
    · exact ofName?_name (fun heq => splitLines_not_mem_named (heq ▸ h))
    · rfl

namespace Text

theorem exists_suffix_of_fields {sep : Char → Bool} {cs : List Char} {before after : List (List Char)}
    (hafter : after ≠ []) (h : fields sep cs = before ++ after) :
    ∃ ds, ds <:+ cs ∧ fields sep ds = after := by
  induction cs generalizing before with
  | nil =>
    cases before with
    | nil => exact ⟨[], List.suffix_refl _, h⟩
    | cons first before =>
      have hnil : before ++ after = [] := (List.cons.inj h).2.symm
      exact absurd (List.append_eq_nil_iff.mp hnil).2 hafter
  | cons c cs ih =>
    cases before with
    | nil => exact ⟨c :: cs, List.suffix_refl _, h⟩
    | cons first before =>
      have hrest : ∃ before, fields sep cs = before ++ after := by
        rw [fields] at h
        split at h
        · exact ⟨before, (List.cons.inj h).2⟩
        · split at h
          · next hnil => exact absurd hnil (fields_ne_nil sep cs)
          · next head fs hfs =>
            rw [(List.cons.inj h).2] at hfs
            exact ⟨head :: before, hfs⟩
      obtain ⟨before, hbefore⟩ := hrest
      obtain ⟨ds, hds, hfields⟩ := ih hbefore
      exact ⟨ds, hds.trans (List.suffix_cons c cs), hfields⟩

theorem forall_trimStart_iff {cs : List Char} :
    (∀ c ∈ trimStart cs, isBlank c) ↔ ∀ c ∈ cs, isBlank c := by
  induction cs with
  | nil => rfl
  | cons c cs ih =>
    rw [trimStart, List.dropWhile_cons]
    split
    · next hblank => exact ih.trans (by simp [hblank])
    · rfl

theorem trim_eq_empty_iff {s : String} : trim s = "" ↔ ∀ c ∈ s.toList, isBlank c := by
  rw [trim, ← String.toList_inj, String.toList_ofList, String.toList_empty, trimEnd,
    List.reverse_eq_nil_iff, List.dropWhile_eq_nil_iff]
  simp only [List.mem_reverse]
  exact forall_trimStart_iff

end Text

namespace Directive

variable {defaults steps : List Step} {directive word name : String} {token : Token} {step : Step}

inductive Says : String → Token → Prop where
  | normal : Says "normal" .normal
  | bare {name : String} {step : Step} (h : Step.Called name step) : Says name (.bare step)
  | append {name : String} {step : Step} (h : Step.Called name step) :
      Says ("+" ++ name) (.append step)
  | prepend {name : String} {step : Step} (h : Step.Called name step) :
      Says (name ++ "+") (.prepend step)
  | remove {name : String} {step : Step} (h : Step.Called name step) :
      Says ("-" ++ name) (.remove step)

def Valid (word : String) : Prop := ∃ token, Says word token

def Bare (word : String) : Prop := word = "normal" ∨ ∃ step, Step.Called word step

def Token.Replaces (token : Token) : Prop := token = .normal ∨ ∃ step, token = .bare step

def Mentions (directive : String) (step : Step) : Prop :=
  ∃ word ∈ tokens directive, ∃ token, Says word token ∧ step ∈ token.steps

theorem called_of_step? {cs : List Char} (h : step? cs = some step) :
    Step.Called (String.ofList cs) step :=
  Step.ofName?_eq_some_iff.mp h

theorem says_of_modifier? {cs : List Char} (h : modifier? cs = some token) :
    Says (String.ofList cs) token := by
  unfold modifier? at h
  split at h
  · cases h
  · next c rest =>
    split at h
    · next hplus =>
      obtain ⟨step, hstep, rfl⟩ := Option.map_eq_some_iff.mp h
      rw [hplus, String.ofList_cons]
      exact .append (called_of_step? hstep)
    · split at h
      · next hlast =>
        obtain ⟨step, hstep, rfl⟩ := Option.map_eq_some_iff.mp h
        obtain ⟨before, hbefore⟩ := List.getLast?_eq_some_iff.mp hlast
        rw [hbefore, List.dropLast_concat] at hstep
        rw [hbefore, String.ofList_append]
        exact .prepend (called_of_step? hstep)
      · split at h
        · next hminus =>
          obtain ⟨step, hstep, rfl⟩ := Option.map_eq_some_iff.mp h
          rw [hminus, String.ofList_cons]
          exact .remove (called_of_step? hstep)
        · obtain ⟨step, hstep, rfl⟩ := Option.map_eq_some_iff.mp h
          exact .bare (called_of_step? hstep)

theorem ofString?_of_called {make : Step → Token} (spell : String → String)
    (hnamed : ∀ step ∈ Step.named, Token.ofString? (spell step.name) = some (make step))
    (hspecials : Token.ofString? (spell "specialchars") = some (make .specials))
    (h : Step.Called name step) : Token.ofString? (spell name) = some (make step) := by
  cases h with
  | name hstep => exact hnamed step hstep
  | specials => exact hspecials

theorem ofString?_eq_some_iff : Token.ofString? word = some token ↔ Says word token := by
  constructor
  · intro h
    rw [Token.ofString?] at h
    split at h
    · next hnormal =>
      cases h
      exact hnormal ▸ .normal
    · have hsays := says_of_modifier? h
      rwa [String.ofList_toList] at hsays
  · intro h
    cases h with
    | normal => rfl
    | bare h => exact ofString?_of_called id (by decide) (by decide) h
    | append h => exact ofString?_of_called ("+" ++ ·) (by decide) (by decide) h
    | prepend h => exact ofString?_of_called (· ++ "+") (by decide) (by decide) h
    | remove h => exact ofString?_of_called ("-" ++ ·) (by decide) (by decide) h

instance (word : String) (token : Token) : Decidable (Says word token) :=
  decidable_of_iff (Token.ofString? word = some token) ofString?_eq_some_iff

instance (word : String) : Decidable (Valid word) :=
  decidable_of_iff (Token.ofString? word).isSome
    (Option.isSome_iff_exists.trans (exists_congr fun _ => ofString?_eq_some_iff))

instance (word : String) : Decidable (Bare word) :=
  decidable_of_iff (word = "normal" ∨ (Step.ofName? word).isSome)
    (or_congr_right
      (Option.isSome_iff_exists.trans (exists_congr fun _ => Step.ofName?_eq_some_iff)))

theorem Says.unique {token' : Token} (h : Says word token) (h' : Says word token') :
    token = token' :=
  Option.some.inj ((ofString?_eq_some_iff.mpr h).symm.trans (ofString?_eq_some_iff.mpr h'))

theorem read_eq_ok_iff : read word = .ok token ↔ Says word token := by
  rw [← ofString?_eq_some_iff, read]
  cases Token.ofString? word with
  | none => exact ⟨fun h => (by cases h), fun h => (by cases h)⟩
  | some t => exact ⟨fun h => congrArg some (Except.ok.inj h), fun h => congrArg _ (Option.some.inj h)⟩

theorem read_of_not_valid (h : ¬ Valid word) : read word = .error (.of (.unsupportedStep word)) := by
  rw [read]
  split
  · next t ht => exact absurd ⟨t, ofString?_eq_some_iff.mp ht⟩ h
  · rfl

theorem tokens_of_blank (h : Text.trim directive = "") : tokens directive = [] := by
  refine List.filter_eq_nil_iff.mpr fun word hword => ?_
  obtain ⟨part, hpart, rfl⟩ := List.mem_map.mp hword
  obtain ⟨f, hf, rfl⟩ := List.mem_map.mp hpart
  have hblank : Text.trim (String.ofList f) = "" := by
    rw [Text.trim_eq_empty_iff, String.toList_ofList]
    exact fun c hc => Text.trim_eq_empty_iff.mp h c (Text.mem_of_mem_fields hf hc)
  simpa using hblank

theorem exists_suffix_of_tokens {before after : List String} (hafter : after ≠ [])
    (h : tokens directive = before ++ after) :
    ∃ rest : String, rest.toList <:+ directive.toList ∧ tokens rest = after := by
  obtain ⟨first, last, hparts, -, hlast⟩ := List.filter_eq_append_iff.mp h
  obtain ⟨heads, ends, htexts, -, hends⟩ := List.map_eq_append_iff.mp hparts
  obtain ⟨front, back, hfields, -, hback⟩ := List.map_eq_append_iff.mp htexts
  have hne : back ≠ [] := by
    rintro rfl
    subst hback hends hlast
    exact hafter rfl
  obtain ⟨ds, hsuffix, hds⟩ := Text.exists_suffix_of_fields hne hfields
  refine ⟨String.ofList ds, String.toList_ofList.symm ▸ hsuffix, ?_⟩
  rw [tokens, Text.splitOn, String.toList_ofList, hds, hback, hends, hlast]

theorem select_of_blank (h : Text.trim directive = "") :
    select defaults directive = .ok (defaults ++ [.splitLines]) := by
  rw [select, if_pos h]
  rfl

theorem select_eq_ok_iff (h : Text.trim directive ≠ "") :
    select defaults directive = .ok steps ↔
      ∃ said, List.Forall₂ Says (tokens directive) said ∧
        (said.foldl (Token.apply defaults) ⟨[], false⟩).steps ++ [.splitLines] = steps := by
  rw [select, if_neg h, bind_eq_ok]
  constructor
  · rintro ⟨said, hsaid, hsteps⟩
    exact ⟨said, (mapM_eq_ok_iff.mp hsaid).imp fun _ _ => read_eq_ok_iff.mp, Except.ok.inj hsteps⟩
  · rintro ⟨said, hsaid, rfl⟩
    exact ⟨said, mapM_eq_ok_iff.mpr (hsaid.imp fun _ _ => read_eq_ok_iff.mpr), rfl⟩

theorem replaced_foldl {said : List Token} {selection : Selection}
    (h : ∀ token ∈ said, ¬ token.Replaces) :
    (said.foldl (Token.apply defaults) selection).replaced = selection.replaced := by
  induction said generalizing selection with
  | nil => rfl
  | cons token said ih =>
    obtain ⟨htoken, hsaid⟩ := List.forall_mem_cons.mp h
    rw [List.foldl_cons, ih hsaid]
    cases token with
    | normal => exact absurd (.inl rfl) htoken
    | bare step => exact absurd (.inr ⟨step, rfl⟩) htoken
    | append step => rfl
    | prepend step => rfl
    | remove step => rfl

theorem apply_of_replaces {selection selection' : Selection} (htoken : token.Replaces)
    (h : selection.replaced = false) (h' : selection'.replaced = false) :
    token.apply defaults selection = token.apply defaults selection' := by
  obtain rfl | ⟨step, rfl⟩ := htoken
  all_goals simp only [Token.apply, Selection.named, h, h', Bool.false_eq_true, if_false]

theorem foldl_append_of_replaces {before after : List Token}
    (hbefore : ∀ token ∈ before, ¬ token.Replaces) (htoken : token.Replaces) :
    (before ++ token :: after).foldl (Token.apply defaults) ⟨[], false⟩ =
      (token :: after).foldl (Token.apply defaults) ⟨[], false⟩ := by
  have hstart : (⟨[], false⟩ : Selection).replaced = false := rfl
  have hreplaced : (before.foldl (Token.apply defaults) ⟨[], false⟩).replaced = false :=
    replaced_foldl hbefore
  rw [List.foldl_append, List.foldl_cons, List.foldl_cons, apply_of_replaces htoken hreplaced hstart]

theorem replaces_iff_bare (h : Says word token) : token.Replaces ↔ Bare word := by
  constructor
  · rintro (rfl | ⟨step, rfl⟩)
    · cases h
      exact .inl rfl
    · cases h with
      | bare h => exact .inr ⟨step, h⟩
  · rintro (rfl | ⟨step, hstep⟩)
    · exact .inl (h.unique .normal)
    · exact .inr ⟨step, h.unique (.bare hstep)⟩

theorem exists_says_iff {words : List String} :
    (∃ said, List.Forall₂ Says words said) ↔ ∀ word ∈ words, Valid word := by
  induction words with
  | nil => exact ⟨fun _ _ h => absurd h List.not_mem_nil, fun _ => ⟨[], .nil⟩⟩
  | cons word words ih =>
    rw [List.forall_mem_cons, ← ih]
    constructor
    · rintro ⟨_, ⟨⟩ | ⟨hword, hwords⟩⟩
      exact ⟨⟨_, hword⟩, _, hwords⟩
    · rintro ⟨⟨token, hword⟩, said, hwords⟩
      exact ⟨token :: said, .cons hword hwords⟩

theorem exists_says_of_mem {words : List String} {said : List Token}
    (h : List.Forall₂ Says words said) (htoken : token ∈ said) :
    ∃ word ∈ words, Says word token := by
  induction h with
  | nil => cases htoken
  | @cons first _ words _ hfirst _ ih =>
    rcases List.mem_cons.mp htoken with rfl | htoken
    · exact ⟨first, List.mem_cons_self, hfirst⟩
    · obtain ⟨word, hword, hsays⟩ := ih htoken
      exact ⟨word, List.mem_cons_of_mem first hword, hsays⟩

theorem exists_says_append {before after : List String} {said : List Token}
    (h : List.Forall₂ Says (before ++ after) said) :
    ∃ earlier later, said = earlier ++ later ∧ List.Forall₂ Says before earlier ∧
      List.Forall₂ Says after later := by
  induction before generalizing said with
  | nil => exact ⟨[], said, rfl, .nil, h⟩
  | cons word before ih =>
    obtain ⟨token, rest, hword, hrest, rfl⟩ := List.forall₂_cons_left_iff.mp h
    obtain ⟨earlier, later, rfl, hbefore, hafter⟩ := ih hrest
    exact ⟨token :: earlier, later, rfl, .cons hword hbefore, hafter⟩

theorem exists_select_ok_iff :
    (∃ steps, select defaults directive = .ok steps) ↔ ∀ word ∈ tokens directive, Valid word := by
  by_cases hblank : Text.trim directive = ""
  · rw [tokens_of_blank hblank, select_of_blank hblank]
    exact ⟨fun _ _ h => absurd h List.not_mem_nil, fun _ => ⟨_, rfl⟩⟩
  · simp only [select_eq_ok_iff hblank, ← exists_says_iff]
    exact ⟨fun ⟨_, said, hsaid, _⟩ => ⟨said, hsaid⟩, fun ⟨said, hsaid⟩ => ⟨_, said, hsaid, rfl⟩⟩

theorem trim_ne_empty_of_mem (h : word ∈ tokens directive) : Text.trim directive ≠ "" := by
  intro hblank
  rw [tokens_of_blank hblank] at h
  exact absurd h List.not_mem_nil

theorem select_eq_error {before after : List String} (h : tokens directive = before ++ word :: after)
    (hbefore : ∀ earlier ∈ before, Valid earlier) (hword : ¬ Valid word) :
    select defaults directive = .error (.of (.unsupportedStep word)) := by
  have hread : (tokens directive).mapM read = .error (.of (.unsupportedStep word)) := by
    rw [h]
    refine mapM_eq_error (fun earlier hearlier => ?_) (read_of_not_valid hword)
    obtain ⟨token, htoken⟩ := hbefore earlier hearlier
    exact ⟨token, read_eq_ok_iff.mpr htoken⟩
  have hmem : word ∈ tokens directive := h ▸ List.mem_append_right before List.mem_cons_self
  rw [select, if_neg (trim_ne_empty_of_mem hmem), hread]
  rfl

theorem not_mentions_splitLines : ¬ Mentions directive .splitLines := by
  rintro ⟨word, -, token, hsays, hmem⟩
  exact Step.splitLines_not_mem_named (steps_subset_of_read (read_eq_ok_iff.mpr hsays) hmem)

theorem mem_or_mentions_of_foldl {said : List Token}
    (hsaid : List.Forall₂ Says (tokens directive) said)
    (h : step ∈ (said.foldl (Token.apply defaults) ⟨[], false⟩).steps) :
    step ∈ defaults ∨ Mentions directive step := by
  have hsubset : (said.foldl (Token.apply defaults) ⟨[], false⟩).steps ⊆
      defaults ++ said.flatMap Token.steps := by
    refine subset_foldl_apply (List.nil_subset _) (List.subset_append_left _ _) ?_
    intro token htoken step hstep
    exact List.mem_append_right _ (List.mem_flatMap.mpr ⟨token, htoken, hstep⟩)
  refine (List.mem_append.mp (hsubset h)).imp id fun hmem => ?_
  obtain ⟨token, htoken, hstep⟩ := List.mem_flatMap.mp hmem
  obtain ⟨word, hword, hsays⟩ := exists_says_of_mem hsaid htoken
  exact ⟨word, hword, token, hsays, hstep⟩

theorem exists_others_of_select (hdefaults : .splitLines ∉ defaults)
    (h : select defaults directive = .ok steps) :
    ∃ others, steps = others ++ [.splitLines] ∧ .splitLines ∉ others ∧
      ∀ step ∈ others, step ∈ defaults ∨ Mentions directive step := by
  by_cases hblank : Text.trim directive = ""
  · rw [select_of_blank hblank] at h
    cases h
    exact ⟨defaults, rfl, hdefaults, fun _ => .inl⟩
  · obtain ⟨said, hsaid, rfl⟩ := (select_eq_ok_iff hblank).mp h
    refine ⟨_, rfl, fun hmem => ?_, fun _ => mem_or_mentions_of_foldl hsaid⟩
    exact (mem_or_mentions_of_foldl hsaid hmem).elim hdefaults not_mentions_splitLines

theorem select_of_tokens {rest : String} {before after : List String}
    (h : tokens directive = before ++ word :: after) (hbefore : ∀ earlier ∈ before, ¬ Bare earlier)
    (hword : Bare word) (hrest : tokens rest = word :: after)
    (hsteps : select defaults directive = .ok steps) : select defaults rest = .ok steps := by
  have hmem : word ∈ tokens directive := h ▸ List.mem_append_right before List.mem_cons_self
  obtain ⟨said, hsaid, rfl⟩ := (select_eq_ok_iff (trim_ne_empty_of_mem hmem)).mp hsteps
  rw [h] at hsaid
  obtain ⟨earlier, later, rfl, hearlier, hlater⟩ := exists_says_append hsaid
  have hblank := trim_ne_empty_of_mem (hrest ▸ List.mem_cons_self : word ∈ tokens rest)
  refine (select_eq_ok_iff hblank).mpr ⟨later, hrest ▸ hlater, ?_⟩
  obtain ⟨token, after', hsays, -, rfl⟩ := List.forall₂_cons_left_iff.mp hlater
  have hnone : ∀ token ∈ earlier, ¬ token.Replaces := fun token htoken hreplaces => by
    obtain ⟨word, hword, hsays⟩ := exists_says_of_mem hearlier htoken
    exact hbefore word hword ((replaces_iff_bare hsays).mp hreplaces)
  rw [foldl_append_of_replaces hnone ((replaces_iff_bare hsays).mpr hword)]

end Directive

end Manuscript
