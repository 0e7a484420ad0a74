import Manuscript.Proofs.Count
import Manuscript.Proofs.Reserved.Tidy
import Manuscript.Proofs.Resolution.Replay

namespace Manuscript

open Event

inductive Moment where
  | handed (lines : List Line)
  | counted (store : Store) (use : CounterUse)

namespace Moment

def Reveals : Moment → Prop
  | handed _ => False
  | counted store use =>
      use.hidden = false ∧ nextValue store use = .ok (.character reservedChar)

theorem nextChar?_eq_reserved {c : Char} :
    Count.nextChar? c = some reservedChar ↔ c = '\uFFFC' := by
  constructor
  · intro h
    obtain ⟨hlt, hleast⟩ := Count.nextChar?_eq_some_iff.mp h
    by_contra hne
    have hbefore : c < '\uFFFC' := Std.lt_of_le_of_ne (Nat.le_of_lt_succ hlt) hne
    exact absurd (hleast _ hbefore) (by decide)
  · rintro rfl
    rfl

theorem reveals_iff {store : Store} {use : CounterUse} :
    (counted store use).Reveals ↔ use.hidden = false ∧
      (use.pinned = some (.character reservedChar) ∨
        use.pinned = none ∧ store.count use.name = .character '\uFFFC') := by
  refine and_congr_right fun _ => ?_
  rw [nextValue]
  cases use.pinned with
  | some value => simp
  | none =>
    cases store.count use.name with
    | number n => by_cases hn : n = Int64.maxValue <;> simp [Count.next?, hn]
    | text s => simp [Count.next?]
    | character c =>
      have hc := @nextChar?_eq_reserved c
      cases hnext : Count.nextChar? c <;> simp_all [Count.next?]

end Moment

def Silent (moments : List Moment) : Prop :=
  ∀ moment ∈ moments, ¬ moment.Reveals

theorem silent_nil : Silent [] := fun _ h => absurd h List.not_mem_nil

theorem silent_append {first second : List Moment} :
    Silent (first ++ second) ↔ Silent first ∧ Silent second :=
  List.forall_mem_append

theorem silent_singleton {moment : Moment} : Silent [moment] ↔ ¬ moment.Reveals :=
  List.forall_mem_singleton

def followed {σ α : Type} (first : σ → List Moment) (action : Stateful σ α)
    (next : α → σ → List Moment) (s : σ) : List Moment :=
  first s ++
    match runFrom s action with
    | (.ok a, s') => next a s'
    | (.error _, _) => []

theorem followed_of_ok {σ α : Type} {first : σ → List Moment} {action : Stateful σ α}
    {next : α → σ → List Moment} {s s' : σ} {a : α} (h : runFrom s action = (.ok a, s')) :
    followed first action next s = first s ++ next a s' := by
  rw [followed, h]

namespace Event

def moments : Event → Resolution → List Moment
  | count use, r => [.counted r.store use]
  | _, _ => []

def momentsOf : List Event → Resolution → List Moment
  | [] => fun _ => []
  | event :: rest => followed event.moments event.run fun _ => momentsOf rest

def Tidy : Event → Prop
  | declare _ value => value.Tidy
  | reset _ => True
  | reference name => Clean name
  | count _ => True

end Event

def resolveMoments (elements : List Element) : Resolution → List Moment :=
  momentsOf (gather ofElement? elements)

theorem tidy_iff_of_event {x : Element} {event : Event} (h : ofElement? x = some event) :
    x.Throughout Element.Tidy ↔ event.Tidy := by
  cases x
  case declaration name value => cases h; exact tidy_declaration
  case attributeReference name => cases h; exact throughout_of_leaf rfl rfl
  case reset name => cases h; exact throughout_of_leaf rfl rfl
  case counter use => cases h; exact throughout_of_leaf rfl rfl
  all_goals cases h

theorem clean_toString_nat (n : Nat) : Clean (toString n) := by
  intro h
  rw [Nat.toString_eq_repr, Nat.repr, String.toList_ofList] at h
  have hdigit := Nat.isDigit_of_mem_toDigits (by decide) (by decide) h
  exact absurd hdigit (by decide)

theorem clean_toString_int (n : Int) : Clean (toString n) := by
  cases n with
  | ofNat n => exact clean_toString_nat n
  | negSucc n => exact clean_append.mpr ⟨by decide, clean_toString_nat (n + 1)⟩

theorem clean_shown_iff {value : Count} {shown : String} (h : value.shown? = some shown) :
    Clean shown ↔ value ≠ .character reservedChar := by
  cases value with
  | number n =>
    obtain rfl := Option.some.inj h
    exact iff_of_true (clean_toString_int n.toInt) (by simp)
  | character c =>
    obtain rfl := Option.some.inj h
    rw [clean_singleton, ne_eq, ne_eq, Count.character.injEq]
  | text s => cases h

namespace Event

variable {r r' : Resolution} {event : Event} {o : Element}

theorem tidy_run (he : event.Tidy) (hstore : r.store.Tidy)
    (h : runFrom r event.run = (.ok o, r')) :
    r'.store.Tidy ∧ (Silent (event.moments r) → o.Throughout Element.Tidy) ∧
      (o.Throughout Element.Unmarked → Silent (event.moments r)) := by
  obtain ⟨turn, hturn, rfl, rfl⟩ := runFrom_run_eq_ok_iff.mp h
  cases event with
  | declare name value =>
    cases hturn
    exact ⟨hstore.set he, fun _ => tidy_declaration.mpr he, fun _ => silent_nil⟩
  | reset name =>
    cases hturn
    refine ⟨hstore.set Value.tidy_nil, fun _ => ?_, fun _ => silent_nil⟩
    exact (throughout_of_leaf rfl rfl).mpr trivial
  | reference name =>
    obtain ⟨warning, hreference⟩ := turn_reference_eq r.store name
    obtain rfl := Except.ok.inj (hreference.symm.trans hturn)
    refine ⟨hstore, fun _ => throughout_text.mpr ?_, fun _ => silent_nil⟩
    cases ht : r.store.text? name with
    | none => exact clean_literalReference he
    | some s => exact hstore.clean_text? ht
  | count use =>
    obtain ⟨value, shown, hvalue, hshown, rfl⟩ := of_turn_count_eq_ok hturn
    have hclean := clean_shown_iff hshown
    have hiff : Silent [.counted r.store use] ↔ Clean (if use.hidden then "" else shown) := by
      rw [silent_singleton, Moment.Reveals, hvalue]
      cases use.hidden with
      | true => simp [clean_empty]
      | false => simp [hclean]
    exact ⟨hstore, fun hsilent => throughout_text.mpr (hiff.mp hsilent),
      fun hunmarked => hiff.mpr (throughout_text.mp hunmarked)⟩

theorem tidy_mapM_run {events : List Event} (he : ∀ event ∈ events, event.Tidy)
    (hstore : r.store.Tidy) {outcomes : List Element}
    (h : runFrom r (events.mapM run) = (.ok outcomes, r')) :
    outcomes.length = events.length ∧ r'.store.Tidy ∧
      (Silent (momentsOf events r) → ∀ o ∈ outcomes, o.Throughout Element.Tidy) ∧
      ((∀ o ∈ outcomes, o.Throughout Element.Unmarked) → Silent (momentsOf events r)) := by
  induction events generalizing r outcomes with
  | nil =>
    cases h
    exact ⟨rfl, hstore, fun _ _ ho => absurd ho List.not_mem_nil, fun _ => silent_nil⟩
  | cons event rest ih =>
    obtain ⟨hevent, hrest⟩ := List.forall_mem_cons.mp he
    rw [List.mapM_cons] at h
    obtain ⟨o, r₁, hfirst, h⟩ := runFrom_bind_eq_ok.mp h
    obtain ⟨others, r₂, hothers, h⟩ := runFrom_bind_eq_ok.mp h
    cases h
    obtain ⟨hstore₁, htidy₁, hback₁⟩ := tidy_run hevent hstore hfirst
    obtain ⟨hlength, hstore₂, htidy₂, hback₂⟩ := ih hrest hstore₁ hothers
    rw [momentsOf, followed_of_ok hfirst, silent_append]
    refine ⟨congrArg (· + 1) hlength, hstore₂, ?_, ?_⟩
    · rintro ⟨hsilent₁, hsilent₂⟩
      exact List.forall_mem_cons.mpr ⟨htidy₁ hsilent₁, htidy₂ hsilent₂⟩
    · intro hunmarked
      obtain ⟨hunmarked₁, hunmarked₂⟩ := List.forall_mem_cons.mp hunmarked
      exact ⟨hback₁ hunmarked₁, hback₂ hunmarked₂⟩

end Event

variable {r r' : Resolution}

theorem tidy_resolve {elements result : List Element} (htidy : Everywhere Element.Tidy elements)
    (hstore : r.store.Tidy) (h : runFrom r (resolve elements) = (.ok result, r')) :
    r'.store.Tidy ∧
      (Silent (resolveMoments elements r) → Everywhere Element.Tidy result) ∧
      (Everywhere Element.Unmarked result → Silent (resolveMoments elements r)) := by
  obtain ⟨haround, hevents⟩ :=
    (everywhere_iff_around (fun _ _ => tidy_iff_of_event) elements).mp htidy
  rw [resolve_eq, runFrom_map] at h
  cases houtcomes : runFrom r ((gather ofElement? elements).mapM run) with
  | mk outcome r₁ =>
    rw [houtcomes] at h
    cases outcome with
    | error fault => cases h
    | ok outcomes =>
      obtain ⟨hlength, hstore₁, hsilent, hback⟩ := tidy_mapM_run hevents hstore houtcomes
      cases h
      refine ⟨hstore₁, fun hs => ?_, fun hunmarked => hback ?_⟩
      · rw [(filled_run_rebuild hlength).everywhere_iff tidy_merge Element.tidy_withChildren]
        exact ⟨haround, hsilent hs⟩
      · rw [(filled_run_rebuild hlength).everywhere_iff unmarked_merge Element.unmarked_withChildren] at hunmarked
        exact hunmarked.2

theorem runFrom_resolve_singleton {x y : Element}
    (h : runFrom r (resolveElement x) = (.ok y, r')) :
    runFrom r (resolve [x]) = (.ok (merge [y]), r') := by
  have hresolve : resolve [x] = (fun y => merge [y]) <$> resolveElement x := by
    rw [resolve, walkM_eq, List.mapM_cons, List.mapM_nil]
    simp only [map_pure, bind_pure_comp, Functor.map_map, resolveElement]
    cases resolving? x <;> rfl
  rw [hresolve, runFrom_map, h]
  rfl

theorem tidy_resolveElement {x y : Element} (htidy : x.Throughout Element.Tidy)
    (hstore : r.store.Tidy) (h : runFrom r (resolveElement x) = (.ok y, r')) :
    r'.store.Tidy ∧
      (Silent (resolveMoments [x] r) → y.Throughout Element.Tidy) ∧
      (y.Throughout Element.Unmarked → Silent (resolveMoments [x] r)) := by
  have hspec := tidy_resolve (everywhere_singleton.mpr htidy) hstore (runFrom_resolve_singleton h)
  rwa [tidy_merge, unmarked_merge, everywhere_singleton, everywhere_singleton] at hspec

end Manuscript
