import Manuscript.Proofs.Line
import Manuscript.Proofs.Reserved.Reading
import Manuscript.Proofs.Reserved.Resolving
import Manuscript.Proofs.Run

namespace Manuscript

def TidyLines (lines : List Line) : Prop :=
  ∀ line ∈ lines, Everywhere Element.Tidy line

def UnmarkedLines (lines : List Line) : Prop :=
  ∀ line ∈ lines, Everywhere Element.Unmarked line

theorem TidyLines.unmarked {lines : List Line} (h : TidyLines lines) : UnmarkedLines lines :=
  fun line hline => (h line hline).mono fun _ => Element.Tidy.unmarked

def Moment.Unmarked : Moment → Prop
  | handed lines => UnmarkedLines lines
  | counted _ _ => True

structure Fits (moments : List Moment) (records : List Record) (tidy unmarked : Prop) : Prop where
  of_silent : Silent moments →
    (∀ moment ∈ moments, moment.Unmarked) ∧ (∀ record ∈ records, UnmarkedLines record.lines) ∧ tidy
  silent : (∀ record ∈ records, UnmarkedLines record.lines) → unmarked → Silent moments

namespace Fits

theorem nil {tidy unmarked : Prop} (h : tidy) : Fits [] [] tidy unmarked where
  of_silent _ := ⟨fun _ hm => absurd hm List.not_mem_nil, fun _ hr => absurd hr List.not_mem_nil, h⟩
  silent _ _ := silent_nil

theorem append {first second : List Moment} {before after : List Record}
    {tidy₁ tidy₂ unmarked₁ unmarked₂ : Prop} (h₁ : Fits first before tidy₁ unmarked₁)
    (h₂ : tidy₁ → Fits second after tidy₂ unmarked₂) {tidy unmarked : Prop}
    (htidy : tidy₁ → tidy₂ → tidy) (hback : unmarked → unmarked₁ ∧ unmarked₂) :
    Fits (first ++ second) (before ++ after) tidy unmarked where
  of_silent hsilent := by
    obtain ⟨hfirst, hsecond⟩ := silent_append.mp hsilent
    obtain ⟨hm₁, hr₁, ht₁⟩ := h₁.of_silent hfirst
    obtain ⟨hm₂, hr₂, ht₂⟩ := (h₂ ht₁).of_silent hsecond
    exact ⟨List.forall_mem_append.mpr ⟨hm₁, hm₂⟩, List.forall_mem_append.mpr ⟨hr₁, hr₂⟩,
      htidy ht₁ ht₂⟩
  silent hrecords hunmarked := by
    obtain ⟨hr₁, hr₂⟩ := List.forall_mem_append.mp hrecords
    obtain ⟨hu₁, hu₂⟩ := hback hunmarked
    have hfirst := h₁.silent hr₁ hu₁
    exact silent_append.mpr ⟨hfirst, (h₂ (h₁.of_silent hfirst).2.2).silent hr₂ hu₂⟩

end Fits

theorem unmarked_resolveMoments {elements : List Element} {r : Resolution} :
    ∀ moment ∈ resolveMoments elements r, moment.Unmarked := by
  rw [resolveMoments]
  generalize gather Event.ofElement? elements = events
  induction events generalizing r with
  | nil => exact fun _ hm => absurd hm List.not_mem_nil
  | cons event rest ih =>
    refine List.forall_mem_append.mpr ⟨?_, ?_⟩
    · cases event <;> simp [Event.moments, Moment.Unmarked]
    · cases runFrom r event.run with
      | mk outcome r' =>
        cases outcome with
        | error fault => exact fun _ hm => absurd hm List.not_mem_nil
        | ok o => exact ih

def nothing : PassState → List Moment := fun _ => []

variable {α β : Type}

def Tracks (pre : Prop) (action : Run α) (moments : PassState → List Moment)
    (tidy unmarked : α → Prop) : Prop :=
  ∀ s a s', runFrom s action = (.ok a, s') →
    ∃ records, s'.trace = s.trace ++ records ∧
      (pre → s.resolution.store.Tidy →
        Fits (moments s) records (tidy a ∧ s'.resolution.store.Tidy) (unmarked a))

namespace Tracks

variable {pre : Prop} {action : Run α} {moments : PassState → List Moment}
  {tidy unmarked : α → Prop}

theorem pure {a : α} (h : pre → tidy a) : Tracks pre (pure a) nothing tidy unmarked := by
  intro s b s' hrun
  cases hrun
  exact ⟨[], (List.append_nil _).symm, fun hpre hstore => .nil ⟨h hpre, hstore⟩⟩

theorem mono {pre' : Prop} {tidy' unmarked' : α → Prop}
    (h : Tracks pre action moments tidy unmarked) (hpre : pre' → pre)
    (htidy : pre' → ∀ a, tidy a → tidy' a) (hback : ∀ a, unmarked' a → unmarked a) :
    Tracks pre' action moments tidy' unmarked' := by
  intro s a s' hrun
  obtain ⟨records, htrace, hfits⟩ := h s a s' hrun
  refine ⟨records, htrace, fun hpre' hstore => ⟨fun hsilent => ?_, fun hrecords hunmarked => ?_⟩⟩
  · obtain ⟨hmoments, hrecords, ha, hstore'⟩ := (hfits (hpre hpre') hstore).of_silent hsilent
    exact ⟨hmoments, hrecords, htidy hpre' a ha, hstore'⟩
  · exact (hfits (hpre hpre') hstore).silent hrecords (hback a hunmarked)

theorem weaken {pre' : Prop} (h : Tracks pre action moments tidy unmarked) (hpre : pre' → pre) :
    Tracks pre' action moments tidy unmarked :=
  h.mono hpre (fun _ _ => id) fun _ => id

theorem map {f : α → β} {tidy unmarked : β → Prop}
    (h : Tracks pre action moments (fun a => tidy (f a)) fun a => unmarked (f a)) :
    Tracks pre (f <$> action) moments tidy unmarked := by
  intro s b s' hrun
  rw [runFrom_map] at hrun
  cases haction : runFrom s action with
  | mk outcome s₁ =>
    rw [haction] at hrun
    cases outcome with
    | error fault => cases hrun
    | ok a => cases hrun; exact h s a _ haction

theorem bind {next : α → Run β} {more : α → PassState → List Moment} {tidy' unmarked' : β → Prop}
    (h : Tracks pre action moments tidy fun _ => True)
    (hnext : ∀ a, Tracks (pre ∧ tidy a) (next a) (more a) tidy' unmarked') :
    Tracks pre (action >>= next) (followed moments action more) tidy' unmarked' := by
  intro s b s'' hrun
  obtain ⟨a, s', ha, hb⟩ := runFrom_bind_eq_ok.mp hrun
  obtain ⟨before, htrace₁, hfits₁⟩ := h s a s' ha
  obtain ⟨after, htrace₂, hfits₂⟩ := hnext a s' b s'' hb
  refine ⟨before ++ after, by rw [htrace₂, htrace₁, List.append_assoc], fun hpre hstore => ?_⟩
  rw [followed_of_ok ha]
  exact (hfits₁ hpre hstore).append (fun ht => hfits₂ ⟨hpre, ht.1⟩ ht.2) (fun _ ht => ht)
    fun hu => ⟨trivial, hu⟩

theorem cons {x : Element} {xs : List Element} {first : Run Element} {rest : Run (List Element)}
    {others : PassState → List Moment}
    (hfirst : Tracks (x.Throughout Element.Tidy) first moments (·.Throughout Element.Tidy)
      (·.Throughout Element.Unmarked))
    (hrest : Tracks (Everywhere Element.Tidy xs) rest others (Everywhere Element.Tidy)
      (Everywhere Element.Unmarked)) :
    Tracks (Everywhere Element.Tidy (x :: xs)) (do return (← first) :: (← rest))
      (followed moments first fun _ => others) (Everywhere Element.Tidy)
      (Everywhere Element.Unmarked) := by
  intro s ys s'' hrun
  obtain ⟨y, s', hy, hrun⟩ := runFrom_bind_eq_ok.mp hrun
  obtain ⟨rest', s₂, hrest', hrun⟩ := runFrom_bind_eq_ok.mp hrun
  cases hrun
  obtain ⟨before, htrace₁, hfits₁⟩ := hfirst s y s' hy
  obtain ⟨after, htrace₂, hfits₂⟩ := hrest s' rest' s'' hrest'
  refine ⟨before ++ after, by rw [htrace₂, htrace₁, List.append_assoc], fun hpre hstore => ?_⟩
  obtain ⟨hx, hxs⟩ := everywhere_cons.mp hpre
  rw [followed_of_ok hy]
  exact (hfits₁ hx hstore).append (fun ht => hfits₂ hxs ht.2)
    (fun ht₁ ht₂ => ⟨everywhere_cons.mpr ⟨ht₁.1, ht₂.1⟩, ht₂.2⟩) everywhere_cons.mp

end Tracks

theorem tidy_splitLines {lines : List Line} (h : TidyLines lines) : TidyLines (splitLines lines) :=
  everywhere_splitLines (fun _ _ => Text.clean_of_mem_splitOn) h

theorem Store.Tidy.optionsOf {store : Store} (h : store.Tidy) : (Pass.optionsOf store).Clean := by
  intro directory hd
  exact h.clean_text? (Option.mem_filter_iff.mp hd).1

theorem Step.rule?_ne_attribution {step : Step} {rule : Rule} (h : step.rule? = some rule) :
    rule ≠ .attribution := by
  rintro rfl
  cases step <;> cases h

namespace Pass

def stepMoments (setting : Setting) (step : Step) (lines : List Line) (s : PassState) :
    List Moment :=
  match step.rule? with
  | none => []
  | some rule =>
      .handed lines ::
        match step, reread setting.grammar rule (optionsOf s.resolution.store) lines with
        | .attributes, .ok line => resolveMoments line s.resolution
        | _, _ => []

def stepsMoments (setting : Setting) (block : String) (index : Nat) :
    List Step → List Line → PassState → List Moment
  | [], _ => nothing
  | step :: rest, lines =>
      followed (stepMoments setting step lines) (takeStep setting block index step lines)
        (stepsMoments setting block (index + 1) rest)

def linesMoments (setting : Setting) (steps : List Step) (block : String) (lines : List Line) :
    PassState → List Moment :=
  if lines.isEmpty then nothing else stepsMoments setting block 0 steps lines

variable {block : String} {index : Nat} {step : Step} {lines after : List Line}
  {s s' : PassState}

theorem fits_applyStep (index : Nat)
    (h : runFrom s (applyStep recording block step lines) = (.ok after, s')) :
    s'.trace = s.trace ∧ (TidyLines lines → s.resolution.store.Tidy →
      Fits (stepMoments recording step lines s) [⟨block, index, step, after⟩]
        (TidyLines after ∧ s'.resolution.store.Tidy) True) := by
  cases hrule : step.rule? with
  | none =>
    rw [applyStep, hrule] at h
    cases h
    refine ⟨rfl, fun hlines hstore => ⟨fun _ => ?_, fun _ _ => ?_⟩⟩
    · have hsplit := tidy_splitLines hlines
      rw [stepMoments, hrule]
      exact ⟨fun _ hm => absurd hm List.not_mem_nil, List.forall_mem_singleton.mpr hsplit.unmarked,
        hsplit, hstore⟩
    · rw [stepMoments, hrule]
      exact silent_nil
  | some rule =>
    obtain ⟨line, hread, hcases⟩ := applyStep_cases hrule h
    have htidy (hlines : TidyLines lines) (hstore : s.resolution.store.Tidy) :
        Everywhere Element.Tidy line :=
      tidy_of_reread hstore.optionsOf (step.rule?_ne_attribution hrule) hlines hread
    have hhanded : ¬ (Moment.handed lines).Reveals := id
    rcases hcases with ⟨hstep, rfl, hsame⟩ | ⟨rfl, resolved, resolution, hresolve, rfl, rfl⟩
    · subst hsame
      have hmoments : stepMoments recording step lines s' = [.handed lines] := by
        rw [stepMoments, hrule]
        cases step <;> first | rfl | exact absurd rfl hstep
      refine ⟨rfl, fun hlines hstore => ?_⟩
      have hline : TidyLines [line] := List.forall_mem_singleton.mpr (htidy hlines hstore)
      rw [hmoments]
      refine ⟨fun _ => ⟨?_, ?_, hline, hstore⟩, fun _ _ => silent_singleton.mpr hhanded⟩
      · exact List.forall_mem_singleton.mpr hlines.unmarked
      · exact List.forall_mem_singleton.mpr hline.unmarked
    · have hmoments : stepMoments recording .attributes lines s =
          .handed lines :: resolveMoments line s.resolution := by
        rw [stepMoments, hrule]
        dsimp only
        rw [hread]
      refine ⟨rfl, fun hlines hstore => ?_⟩
      obtain ⟨hstore', hsilent, hback⟩ := tidy_resolve (htidy hlines hstore) hstore hresolve
      rw [hmoments]
      refine ⟨fun hall => ?_, fun hrecords _ => ?_⟩
      · have hresolved : TidyLines [resolved] :=
          List.forall_mem_singleton.mpr (hsilent (List.forall_mem_cons.mp hall).2)
        refine ⟨List.forall_mem_cons.mpr ⟨hlines.unmarked, unmarked_resolveMoments⟩, ?_,
          hresolved, hstore'⟩
        exact List.forall_mem_singleton.mpr hresolved.unmarked
      · refine List.forall_mem_cons.mpr ⟨hhanded, hback ?_⟩
        exact List.forall_mem_singleton.mp (List.forall_mem_singleton.mp hrecords)

theorem tracks_takeStep :
    Tracks (TidyLines lines) (takeStep recording block index step lines)
      (stepMoments recording step lines) TidyLines fun _ => True := by
  intro s after s'' h
  obtain ⟨after', s', hstep, h⟩ := runFrom_bind_eq_ok.mp h
  cases h
  obtain ⟨htrace, hfits⟩ := fits_applyStep index hstep
  exact ⟨_, congrArg (· ++ _) htrace, hfits⟩

theorem tracks_applySteps (steps : List Step) :
    Tracks (TidyLines lines) (applySteps recording block index steps lines)
      (stepsMoments recording block index steps lines) TidyLines fun _ => True := by
  induction steps generalizing index lines with
  | nil => exact .pure id
  | cons step rest ih =>
    rw [applySteps_cons]
    exact tracks_takeStep.bind fun after => ih.weaken And.right

theorem tracks_applyLines (steps : List Step) :
    Tracks (TidyLines lines) (applyLines recording steps block lines)
      (linesMoments recording steps block lines) TidyLines fun _ => True := by
  rw [applyLines, linesMoments]
  split
  · exact .pure fun _ _ h => absurd h List.not_mem_nil
  · exact tracks_applySteps steps

end Pass

end Manuscript
