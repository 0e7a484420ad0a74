import Manuscript.Proofs.Count
import Manuscript.Proofs.Resolution.Replay

namespace Manuscript

open Event

namespace CounterUse

inductive Gives (current : Count) : CounterUse → Count → Prop
  | pinned {name : String} {hidden : Bool} {value : Count} : (∀ s, value ≠ .text s) →
      Gives current ⟨name, hidden, some value⟩ value
  | next {name : String} {hidden : Bool} {value : Count} : current.Precedes value →
      Gives current ⟨name, hidden, none⟩ value

def Stuck (current : Count) (use : CounterUse) : Prop :=
  (∃ s, use.pinned = some (.text s)) ∨ use.pinned = none ∧ current.Last

variable {current value : Count} {use : CounterUse}

theorem Gives.ne_text (h : Gives current use value) (s : String) : value ≠ .text s := by
  cases h with
  | pinned hvalue => exact hvalue s
  | next hnext => cases hnext <;> nofun

theorem Gives.unique {other : Count} (h : Gives current use value) (h' : Gives current use other) :
    value = other := by
  cases h with
  | pinned => cases h'; rfl
  | next hnext =>
    obtain _ | hother := h'
    have hsome := Count.next?_eq_some_iff.mpr hnext
    rw [Count.next?_eq_some_iff.mpr hother] at hsome
    exact (Option.some.inj hsome).symm

theorem Gives.not_stuck (h : Gives current use value) : ¬ use.Stuck current := by
  cases h with
  | pinned hvalue =>
    rintro (⟨s, hs⟩ | ⟨hnone, -⟩)
    · exact hvalue s (Option.some.inj hs)
    · cases hnone
  | next hnext =>
    rintro (⟨s, hs⟩ | ⟨-, hlast⟩)
    · cases hs
    · have hnone := Count.next?_eq_none_iff.mpr hlast
      rw [Count.next?_eq_some_iff.mpr hnext] at hnone
      cases hnone

end CounterUse

inductive Course : Count → List CounterUse → List Count → Prop
  | nil {current : Count} : Course current [] []
  | cons {current value : Count} {use : CounterUse} {uses : List CounterUse} {values : List Count} :
      use.Gives current value → Course value uses values → Course current (use :: uses) (value :: values)

namespace Course

variable {current : Count} {uses : List CounterUse} {values others : List Count}

theorem unique (h : Course current uses values) (h' : Course current uses others) :
    values = others := by
  induction h generalizing others with
  | nil => cases h'; rfl
  | cons hgives _ ih =>
    obtain _ | ⟨hother, hothers⟩ := h'
    obtain rfl := hgives.unique hother
    rw [ih hothers]

theorem ne_text (h : Course current uses values) : ∀ value ∈ values, ∀ s, value ≠ .text s := by
  induction h with
  | nil => exact fun _ hv => absurd hv List.not_mem_nil
  | cons hgives _ ih => exact List.forall_mem_cons.mpr ⟨hgives.ne_text, ih⟩

theorem not_stuck {use : CounterUse} {rest : List CounterUse} (h : Course current uses values)
    (hall : Course current (uses ++ use :: rest) others) :
    ¬ use.Stuck (values.getLastD current) := by
  induction h generalizing others with
  | nil =>
    obtain _ | ⟨hgives, -⟩ := hall
    exact hgives.not_stuck
  | cons hgives _ ih =>
    obtain _ | ⟨hother, hothers⟩ := hall
    obtain rfl := hgives.unique hother
    rw [List.getLastD_cons]
    exact ih hothers

end Course

namespace Event

def use? (name : String) : Event → Option CounterUse
  | count use => if use.name = name then some use else none
  | _ => none

end Event

def usesOf (name : String) (events : List Event) : List CounterUse :=
  events.filterMap (use? name)

def valuesOf (name : String) (turns : List Turn) : List Count :=
  (turns.filter fun turn => (turn.event.use? name).isSome).map (·.store.count name)

section

variable {store : Store} {event : Event} {turn : Turn} {use : CounterUse} {name : String}

theorem nextValue_unpinned (store : Store) (name : String) (hidden : Bool) :
    nextValue store ⟨name, hidden, none⟩ =
      match (store.count name).next? with
      | some value => .ok value
      | none => .error (.of (.counterStuck name (store.count name))) := rfl

theorem turn_count (store : Store) (use : CounterUse) :
    (∃ value shown, use.Gives (store.count use.name) value ∧ value.shown? = some shown ∧
      (count use).turn store = .ok ⟨count use, .text (if use.hidden then "" else shown),
        store.setCount use.name value, none⟩) ∨
    (use.Stuck (store.count use.name) ∧ (count use).turn store =
      .error (.of (.counterStuck use.name (use.pinned.getD (store.count use.name))))) := by
  obtain ⟨name, hidden, pinned⟩ := use
  cases pinned with
  | some value =>
    cases value with
    | text s => exact .inr ⟨.inl ⟨s, rfl⟩, rfl⟩
    | number n => exact .inl ⟨_, _, .pinned nofun, rfl, rfl⟩
    | character c => exact .inl ⟨_, _, .pinned nofun, rfl, rfl⟩
  | none =>
    have hvalue := nextValue_unpinned store name hidden
    cases hnext : (store.count name).next? with
    | none =>
      rw [hnext] at hvalue
      refine .inr ⟨.inr ⟨rfl, Count.next?_eq_none_iff.mp hnext⟩, ?_⟩
      rw [turn, hvalue]
      rfl
    | some value =>
      rw [hnext] at hvalue
      have hprecedes := Count.next?_eq_some_iff.mp hnext
      obtain ⟨shown, hshown⟩ := hprecedes.shown
      refine .inl ⟨value, shown, .next hprecedes, hshown, ?_⟩
      rw [turn, hvalue]
      dsimp only
      rw [hshown]
      rfl

theorem gives_of_turn (h : (count use).turn store = .ok turn) :
    use.Gives (store.count use.name) (turn.store.count use.name) ∧
      (∀ name, use.name ≠ name → turn.store.count name = store.count name) ∧
      ∃ shown, (turn.store.count use.name).shown? = some shown ∧
        turn.element = .text (if use.hidden then "" else shown) := by
  rcases turn_count store use with ⟨value, shown, hgives, hshown, hturn⟩ | ⟨-, hturn⟩
  · rw [hturn] at h
    obtain rfl := Except.ok.inj h
    have hself : (store.setCount use.name value).count use.name = value := by
      rw [Store.count_setCount, if_pos rfl]
    rw [hself]
    refine ⟨hgives, fun name hne => ?_, shown, hshown, rfl⟩
    rw [Store.count_setCount, if_neg hne]
  · rw [hturn] at h
    cases h

theorem stuck_of_turn {fault : Fault} (h : event.turn store = .error fault) :
    ∃ use, event = count use ∧ use.Stuck (store.count use.name) ∧
      fault = .of (.counterStuck use.name (use.pinned.getD (store.count use.name))) := by
  cases event with
  | declare name value => cases h
  | reset name => cases h
  | reference name =>
    rw [turn] at h
    split at h <;> cases h
  | count use =>
    rcases turn_count store use with ⟨value, shown, -, -, hturn⟩ | ⟨hstuck, hturn⟩
    · rw [hturn] at h
      cases h
    · rw [hturn] at h
      exact ⟨use, rfl, hstuck, (Except.error.inj h).symm⟩

theorem count_of_turn (h : event.turn store = .ok turn) (huse : event.use? name = none) :
    turn.store.count name = store.count name := by
  cases event with
  | declare key value => cases h; rfl
  | reset key => cases h; rfl
  | reference key =>
    rw [Event.turn] at h
    split at h <;> cases h <;> rfl
  | count use =>
    refine (gives_of_turn h).2.1 name fun hname => ?_
    rw [use?, if_pos hname] at huse
    cases huse

theorem use?_eq_some_iff : event.use? name = some use ↔ event = count use ∧ use.name = name := by
  cases event with
  | count other =>
    rw [use?, count.injEq]
    by_cases hname : other.name = name
    · rw [if_pos hname, Option.some.injEq]
      exact ⟨fun h => ⟨h, h ▸ hname⟩, And.left⟩
    · rw [if_neg hname]
      exact iff_of_false nofun fun ⟨he, hn⟩ => hname (he ▸ hn)
  | declare key value => exact iff_of_false nofun fun h => nomatch h.1
  | reset key => exact iff_of_false nofun fun h => nomatch h.1
  | reference key => exact iff_of_false nofun fun h => nomatch h.1

theorem usesOf_append (name : String) (first second : List Event) :
    usesOf name (first ++ second) = usesOf name first ++ usesOf name second :=
  List.filterMap_append

theorem valuesOf_cons_of_none (huse : turn.event.use? name = none) (turns : List Turn) :
    valuesOf name (turn :: turns) = valuesOf name turns := by
  rw [valuesOf, List.filter_cons, huse]
  rfl

theorem valuesOf_cons_of_some (huse : turn.event.use? name = some use) (turns : List Turn) :
    valuesOf name (turn :: turns) = turn.store.count name :: valuesOf name turns := by
  rw [valuesOf, List.filter_cons, huse]
  rfl

theorem course_replay (store : Store) (events : List Event) (name : String) :
    Course (store.count name) (usesOf name ((replay store events).1.map (·.event)))
        (valuesOf name (replay store events).1) ∧
      (storeAfter store (replay store events).1).count name =
        (valuesOf name (replay store events).1).getLastD (store.count name) := by
  induction events generalizing store with
  | nil => exact ⟨.nil, rfl⟩
  | cons event rest ih =>
    cases hturn : event.turn store with
    | error fault =>
      rw [replay_of_error hturn]
      exact ⟨.nil, rfl⟩
    | ok turn =>
      obtain ⟨hcourse, hlast⟩ := ih turn.store
      have hevent := event_of_turn hturn
      rw [replay_of_ok hturn, storeAfter_cons, List.map_cons, usesOf, List.filterMap_cons, hlast]
      -- Only a use of this counter is a step of its course. Anything else leaves its value as it was.
      cases huse : event.use? name with
      | none =>
        rw [count_of_turn hturn huse] at hcourse ⊢
        rw [valuesOf_cons_of_none (hevent ▸ huse), hevent, huse]
        exact ⟨hcourse, rfl⟩
      | some use =>
        rw [valuesOf_cons_of_some (hevent ▸ huse), hevent, huse, List.getLastD_cons]
        obtain ⟨rfl, rfl⟩ := use?_eq_some_iff.mp huse
        exact ⟨.cons (gives_of_turn hturn).1 hcourse, rfl⟩

theorem stuck_of_replay {events : List Event} {turns : List Turn} {fault : Fault}
    (h : replay store events = (turns, some fault)) :
    ∃ use rest, events = turns.map (·.event) ++ count use :: rest ∧
      use.Stuck ((storeAfter store turns).count use.name) ∧ fault.kind = .counter := by
  induction events generalizing store turns with
  | nil => cases h
  | cons event rest ih =>
    cases hturn : event.turn store with
    | error other =>
      rw [replay_of_error hturn] at h
      cases h
      obtain ⟨use, rfl, hstuck, rfl⟩ := stuck_of_turn hturn
      exact ⟨use, rest, rfl, hstuck, rfl⟩
    | ok turn =>
      rw [replay_of_ok hturn] at h
      obtain ⟨rfl, hfault⟩ := Prod.mk.inj h
      obtain ⟨use, left, hrest, hstuck, hkind⟩ := ih (Prod.ext rfl hfault)
      refine ⟨use, left, ?_, hstuck, hkind⟩
      rw [List.map_cons, List.cons_append, event_of_turn hturn, ← hrest]

theorem replay_failed_iff {events : List Event} :
    (∃ fault, (replay store events).2 = some fault) ↔
      ∃ name before use after values, usesOf name events = before ++ use :: after ∧
        Course (store.count name) before values ∧
          use.Stuck (values.getLastD (store.count name)) := by
  rcases hreplay : replay store events with ⟨turns, failed⟩
  have hcourse := course_replay store events
  rw [hreplay] at hcourse
  constructor
  · rintro ⟨fault, rfl⟩
    obtain ⟨use, rest, hevents, hstuck, -⟩ := stuck_of_replay hreplay
    obtain ⟨hvalues, hlast⟩ := hcourse use.name
    have huse : (count use).use? use.name = some use := if_pos rfl
    refine ⟨use.name, _, use, usesOf use.name rest, _, ?_, hvalues, hlast ▸ hstuck⟩
    rw [hevents, usesOf_append, usesOf, usesOf, List.filterMap_cons, huse]
    rfl
  · rintro ⟨name, before, use, after, values, huses, hvalues, hstuck⟩
    cases failed with
    | some fault => exact ⟨fault, rfl⟩
    | none =>
      -- Without a failure the course takes all the uses, so it is stuck at none of them.
      have hall := (hcourse name).1
      rw [events_of_replay hreplay, huses] at hall
      exact absurd hstuck (hvalues.not_stuck hall)

end

/-- Every counter takes its own course through a resolution, and shows it. The resolution fails just if one
of these courses is stuck, and leaves that counter as it was before the use. -/
theorem counters_take_their_course (elements : List Element) (r : Resolution) :
    let events := gather ofElement? elements
    let turns := (replay r.store events).1
    let run := runFrom r (resolve elements)
    (run.2 = r.after turns ∧ ∀ result, run.1 = .ok result → turns.map (·.event) = events ∧
      Filled ofElement? merge elements (turns.map (·.element)) result) ∧
    (∀ name values, Course (r.store.count name) (usesOf name (turns.map (·.event))) values ↔
      values = valuesOf name turns) ∧
    (∀ turn ∈ turns, ∀ use, turn.event = count use →
      ∃ shown, (turn.store.count use.name).shown? = some shown ∧
        turn.element = .text (if use.hidden then "" else shown)) ∧
    (∀ name, run.2.store.count name = (valuesOf name turns).getLastD (r.store.count name)) ∧
    (∀ name, ∀ value ∈ valuesOf name turns, ∀ s, value ≠ .text s) ∧
    ((∃ fault, run.1 = .error fault) ↔
      ∃ name before use after values, usesOf name events = before ++ use :: after ∧
        Course (r.store.count name) before values ∧
          use.Stuck (values.getLastD (r.store.count name))) ∧
    ∀ fault, run.1 = .error fault → fault.kind = .counter ∧
      ∃ use rest, events = turns.map (·.event) ++ count use :: rest ∧
        use.Stuck (run.2.store.count use.name) := by
  intro events turns run
  have hcourse := course_replay r.store events
  have hstate : run.2 = r.after turns := runFrom_resolve_snd r elements
  have hfault (fault : Fault) : run.1 = .error fault ↔ (replay r.store events).2 = some fault :=
    runFrom_resolve_eq_error_iff
  refine ⟨⟨hstate, fun result => filled_of_runFrom_resolve⟩, fun name values => ⟨fun h => ?_, ?_⟩,
    fun turn hmem use huse => ?_, fun name => ?_, fun name => (hcourse name).1.ne_text, ?_,
    fun fault h => ?_⟩
  · exact h.unique (hcourse name).1
  · rintro rfl
    exact (hcourse name).1
  · obtain ⟨before, hturn⟩ := turn_of_mem_replay hmem
    exact (gives_of_turn (huse ▸ hturn)).2.2
  · rw [hstate]
    exact (hcourse name).2
  · rw [exists_congr hfault]
    exact replay_failed_iff
  · obtain ⟨use, rest, hevents, hstuck, hkind⟩ :=
      stuck_of_replay (Prod.ext rfl ((hfault fault).mp h))
    rw [hstate]
    exact ⟨hkind, use, rest, hevents, hstuck⟩

end Manuscript
