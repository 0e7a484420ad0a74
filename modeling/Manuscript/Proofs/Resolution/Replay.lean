import Manuscript.Proofs.Filling
import Manuscript.Proofs.Outcome
import Manuscript.Substitution.Resolution

namespace Manuscript

open Event

structure Turn where
  event : Event
  element : Element
  store : Store
  warning : Option Warning

namespace Event

def turn (store : Store) : Event → Except Fault Turn
  | declare name value =>
      .ok ⟨declare name value, .declaration name value,
        { store with live := store.live.insert name value }, none⟩
  | reset name =>
      .ok ⟨reset name, .reset name, { store with live := store.live.insert name .nil }, none⟩
  | reference name =>
      match (store.overrides.find? name).or (store.live.find? name) with
      | none | some .nil =>
          .ok ⟨reference name, .text (literalReference name), store, some (.missingAttribute name)⟩
      | some value => .ok ⟨reference name, .text value.asText, store, none⟩
  | count use =>
      match nextValue store use with
      | .error fault => .error fault
      | .ok value =>
          match value.shown? with
          | none => .error (.of (.counterStuck use.name value))
          | some shown =>
              .ok ⟨count use, .text (if use.hidden then "" else shown),
                { store with counters := store.counters.insert use.name value }, none⟩

end Event

def replay (store : Store) : List Event → List Turn × Option Fault
  | [] => ([], none)
  | event :: rest =>
      match event.turn store with
      | .error fault => ([], some fault)
      | .ok turn => (turn :: (replay turn.store rest).1, (replay turn.store rest).2)

def storeAfter (store : Store) (turns : List Turn) : Store :=
  turns.foldl (fun _ turn => turn.store) store

def Resolution.after (r : Resolution) (turns : List Turn) : Resolution :=
  ⟨storeAfter r.store turns, r.warnings ++ turns.filterMap (·.warning)⟩

section

variable {store : Store} {event : Event} {turn : Turn} {r : Resolution}

theorem event_of_turn (h : event.turn store = .ok turn) : turn.event = event := by
  unfold Event.turn at h
  repeat' split at h
  all_goals first | (cases h; rfl) | cases h

def Event.element : Event → Element
  | declare name value => .declaration name value
  | reset name => .reset name
  | reference name => .attributeReference name
  | count use => .counter use

theorem eq_element_of_ofElement? {x : Element} (h : ofElement? x = some event) :
    x = event.element := by
  cases x <;> cases h <;> rfl

theorem element_of_turn (h : event.turn store = .ok turn) :
    (∃ s, turn.element = .text s) ∨ turn.element = event.element := by
  unfold Event.turn at h
  repeat' split at h
  all_goals first | (cases h; exact .inl ⟨_, rfl⟩) | (cases h; exact .inr rfl) | cases h

theorem storeAfter_cons (store : Store) (turn : Turn) (turns : List Turn) :
    storeAfter store (turn :: turns) = storeAfter turn.store turns := rfl

theorem replay_of_ok (h : event.turn store = .ok turn) (rest : List Event) :
    replay store (event :: rest) =
      (turn :: (replay turn.store rest).1, (replay turn.store rest).2) := by
  rw [replay, h]

theorem replay_of_error {fault : Fault} (h : event.turn store = .error fault)
    (rest : List Event) : replay store (event :: rest) = ([], some fault) := by
  rw [replay, h]

theorem Resolution.after_silent (r : Resolution) (event : Event) (element : Element) (store : Store) :
    r.after [⟨event, element, store, none⟩] = { r with store := store } := by
  simp [after, storeAfter]

theorem Resolution.after_cons (r : Resolution) (turn : Turn) (turns : List Turn) :
    r.after (turn :: turns) = (r.after [turn]).after turns := by
  cases hwarning : turn.warning <;> simp [after, storeAfter, hwarning]

theorem runFrom_refer (r : Resolution) (name : String) :
    runFrom r (refer name) =
      match r.store.text? name with
      | some s => (.ok (.text s), r)
      | none => (.ok (.text (literalReference name)),
          { r with warnings := r.warnings ++ [.missingAttribute name] }) := by
  have hget : runFrom r (get : Resolve Resolution) = (.ok r, r) := rfl
  rw [refer, runFrom_bind_ok hget]
  cases r.store.text? name <;> rfl

theorem runFrom_advance (r : Resolution) (use : CounterUse) :
    runFrom r (advance use) =
      match nextValue r.store use with
      | .error fault => (.error fault, r)
      | .ok value =>
          match value.shown? with
          | none => (.error (.of (.counterStuck use.name value)), r)
          | some shown => (.ok (.text (if use.hidden then "" else shown)),
              { r with store := r.store.setCount use.name value }) := by
  have hnext : runFrom r (do ExceptT.mk (return nextValue (← get).store use)) =
      (nextValue r.store use, r) := rfl
  rw [advance, runFrom_bind, hnext]
  cases nextValue r.store use with
  | error fault => rfl
  | ok value =>
    dsimp only
    cases value.shown? <;> rfl

theorem runFrom_run (r : Resolution) (event : Event) :
    runFrom r event.run =
      match event.turn r.store with
      | .ok turn => (.ok turn.element, r.after [turn])
      | .error fault => (.error fault, r) := by
  cases event with
  | declare name value =>
    rw [turn]
    dsimp only
    rw [Resolution.after_silent]
    rfl
  | reset name =>
    rw [turn]
    dsimp only
    rw [Resolution.after_silent]
    rfl
  | reference name =>
    rw [run, runFrom_refer, turn, Store.text?, Store.find?]
    cases (r.store.overrides.find? name).or (r.store.live.find? name) with
    | none => rfl
    | some value =>
      cases value
      case nil => rfl
      all_goals
        dsimp only
        rw [Resolution.after_silent]
        rfl
  | count use =>
    rw [run, runFrom_advance, turn]
    cases nextValue r.store use with
    | error fault => rfl
    | ok value =>
      dsimp only
      cases value.shown? with
      | none => rfl
      | some shown =>
        dsimp only
        rw [Resolution.after_silent]
        rfl

theorem runFrom_run_eq_ok_iff {r' : Resolution} {element : Element} :
    runFrom r event.run = (.ok element, r') ↔
      ∃ turn, event.turn r.store = .ok turn ∧ element = turn.element ∧ r' = r.after [turn] := by
  rw [runFrom_run]
  cases hturn : event.turn r.store with
  | error fault => exact iff_of_false nofun fun ⟨_, h, _⟩ => nomatch h
  | ok turn =>
    constructor
    · intro h
      cases h
      exact ⟨turn, rfl, rfl, rfl⟩
    · rintro ⟨_, h, rfl, rfl⟩
      rw [Except.ok.inj h]

theorem turn_reference_eq (store : Store) (name : String) :
    ∃ warning, (reference name).turn store = .ok ⟨reference name,
      .text ((store.text? name).getD (literalReference name)), store, warning⟩ := by
  rw [turn, Store.text?, Store.find?]
  cases (store.overrides.find? name).or (store.live.find? name) with
  | none => exact ⟨_, rfl⟩
  | some value => cases value <;> exact ⟨_, rfl⟩

theorem of_turn_count_eq_ok {use : CounterUse} (h : (count use).turn store = .ok turn) :
    ∃ value shown, nextValue store use = .ok value ∧ value.shown? = some shown ∧
      turn = ⟨count use, .text (if use.hidden then "" else shown),
        store.setCount use.name value, none⟩ := by
  rw [Event.turn] at h
  cases hnext : nextValue store use with
  | error fault => rw [hnext] at h; cases h
  | ok value =>
    rw [hnext] at h
    dsimp only at h
    cases hshown : value.shown? with
    | none => rw [hshown] at h; cases h
    | some shown =>
      rw [hshown] at h
      exact ⟨value, shown, rfl, hshown, (Except.ok.inj h).symm⟩

def replayed (r : Resolution) (events : List Event) : Except Fault (List Element) × Resolution :=
  match replay r.store events with
  | (turns, none) => (.ok (turns.map (·.element)), r.after turns)
  | (turns, some fault) => (.error fault, r.after turns)

theorem replayed_nil (r : Resolution) : replayed r [] = (.ok [], r) := by
  simp [replayed, replay, Resolution.after, storeAfter]

theorem replayed_of_ok (h : event.turn r.store = .ok turn) (rest : List Event) :
    replayed r (event :: rest) =
      ((replayed (r.after [turn]) rest).1.map (turn.element :: ·),
        (replayed (r.after [turn]) rest).2) := by
  have hstore : (r.after [turn]).store = turn.store := rfl
  rw [replayed, replayed, replay_of_ok h, hstore]
  rcases replay turn.store rest with ⟨turns, _ | fault⟩ <;>
    exact congrArg (_, ·) (r.after_cons turn turns)

theorem replayed_of_error {fault : Fault} (h : event.turn r.store = .error fault)
    (rest : List Event) : replayed r (event :: rest) = (.error fault, r) := by
  rw [replayed, replay_of_error h]
  simp [Resolution.after, storeAfter]

theorem runFrom_mapM_run (r : Resolution) (events : List Event) :
    runFrom r (events.mapM run) = replayed r events := by
  induction events generalizing r with
  | nil => exact (replayed_nil r).symm
  | cons event rest ih =>
    have hrun := runFrom_run r event
    rw [List.mapM_cons]
    cases hturn : event.turn r.store with
    | error fault =>
      rw [hturn] at hrun
      rw [runFrom_bind_error hrun, replayed_of_error hturn]
    | ok turn =>
      rw [hturn] at hrun
      rw [runFrom_bind_ok hrun, replayed_of_ok hturn, bind_pure_comp, runFrom_map, ih]

theorem events_of_replay {turns : List Turn} {events : List Event}
    (h : replay store events = (turns, none)) : turns.map (·.event) = events := by
  induction events generalizing store turns with
  | nil => cases h; rfl
  | cons event rest ih =>
    cases hturn : event.turn store with
    | error fault => rw [replay_of_error hturn] at h; cases h
    | ok turn =>
      rw [replay_of_ok hturn] at h
      obtain ⟨rfl, hnone⟩ := Prod.mk.inj h
      rw [List.map_cons, event_of_turn hturn, ih (Prod.ext rfl hnone)]

theorem turn_of_mem_replay {events : List Event} (h : turn ∈ (replay store events).1) :
    ∃ before, turn.event.turn before = .ok turn := by
  induction events generalizing store with
  | nil => cases h
  | cons event rest ih =>
    cases hturn : event.turn store with
    | error fault => rw [replay_of_error hturn] at h; cases h
    | ok first =>
      rw [replay_of_ok hturn] at h
      rcases List.mem_cons.mp h with rfl | h
      · exact ⟨store, event_of_turn hturn ▸ hturn⟩
      · exact ih h

end

theorem resolve_eq (elements : List Element) :
    resolve elements =
      (fun outcomes => ((rebuild ofElement? merge elements).run outcomes).1) <$>
        (gather ofElement? elements).mapM run :=
  walkM_eq_replay ofElement? merge run elements

section

variable {r : Resolution} {elements : List Element} {turns : List Turn}

theorem runFrom_resolve (r : Resolution) (elements : List Element) :
    runFrom r (resolve elements) =
      ((replayed r (gather ofElement? elements)).1.map
        fun outcomes => ((rebuild ofElement? merge elements).run outcomes).1,
        (replayed r (gather ofElement? elements)).2) := by
  rw [resolve_eq, runFrom_map, runFrom_mapM_run]

theorem runFrom_resolve_of_replay (h : replay r.store (gather ofElement? elements) = (turns, none)) :
    ∃ result, runFrom r (resolve elements) = (.ok result, r.after turns) ∧
      Filled ofElement? merge elements (turns.map (·.element)) result := by
  rw [runFrom_resolve, replayed, h]
  refine ⟨_, rfl, filled_run_rebuild ?_⟩
  rw [← events_of_replay h, List.length_map, List.length_map]

theorem runFrom_resolve_of_replay_failed {fault : Fault}
    (h : replay r.store (gather ofElement? elements) = (turns, some fault)) :
    runFrom r (resolve elements) = (.error fault, r.after turns) := by
  rw [runFrom_resolve, replayed, h]
  rfl

theorem runFrom_resolve_snd (r : Resolution) (elements : List Element) :
    (runFrom r (resolve elements)).2 = r.after (replay r.store (gather ofElement? elements)).1 := by
  rcases hreplay : replay r.store (gather ofElement? elements) with ⟨turns, _ | fault⟩
  · obtain ⟨result, hrun, -⟩ := runFrom_resolve_of_replay hreplay
    rw [hrun]
  · rw [runFrom_resolve_of_replay_failed hreplay]

theorem runFrom_resolve_eq_error_iff {fault : Fault} :
    (runFrom r (resolve elements)).1 = .error fault ↔
      (replay r.store (gather ofElement? elements)).2 = some fault := by
  rcases hreplay : replay r.store (gather ofElement? elements) with ⟨turns, _ | other⟩
  · obtain ⟨result, hrun, -⟩ := runFrom_resolve_of_replay hreplay
    rw [hrun]
    exact iff_of_false nofun nofun
  · rw [runFrom_resolve_of_replay_failed hreplay, Except.error.injEq, Option.some.injEq]

theorem filled_of_runFrom_resolve {result : List Element}
    (h : (runFrom r (resolve elements)).1 = .ok result) :
    (replay r.store (gather ofElement? elements)).1.map (·.event) = gather ofElement? elements ∧
      Filled ofElement? merge elements
        ((replay r.store (gather ofElement? elements)).1.map (·.element)) result := by
  rcases hreplay : replay r.store (gather ofElement? elements) with ⟨turns, _ | fault⟩
  · obtain ⟨other, hrun, hfilled⟩ := runFrom_resolve_of_replay hreplay
    rw [hrun] at h
    obtain rfl := Except.ok.inj h
    exact ⟨events_of_replay hreplay, hfilled⟩
  · rw [runFrom_resolve_of_replay_failed hreplay] at h
    cases h

theorem outcomes_of_runFrom_resolve {result : List Element}
    (h : (runFrom r (resolve elements)).1 = .ok result) :
    ∃ outcomes, Filled ofElement? merge elements outcomes result ∧
      ∀ o ∈ outcomes, (∃ s, o = .text s) ∨
        ∃ event ∈ gather ofElement? elements, o = event.element := by
  obtain ⟨hevents, hfilled⟩ := filled_of_runFrom_resolve h
  refine ⟨_, hfilled, List.forall_mem_map.mpr fun turn hturn => ?_⟩
  obtain ⟨before, hbefore⟩ := turn_of_mem_replay hturn
  refine (element_of_turn hbefore).imp_right fun hsame => ⟨turn.event, ?_, hsame⟩
  rw [← hevents]
  exact List.mem_map_of_mem hturn

end

/-- A sequence resolves just if all its events take their turns. What they come to stands then where the
events stood, and every sequence is merged. -/
theorem resolve_eq_linear_replay (elements : List Element) (r : Resolution) :
    match replay r.store (gather ofElement? elements) with
    | (turns, none) => ∃ result,
        runFrom r (resolve elements) = (.ok result, r.after turns) ∧
          Filled ofElement? merge elements (turns.map (·.element)) result
    | (turns, some fault) => runFrom r (resolve elements) = (.error fault, r.after turns) := by
  rcases hreplay : replay r.store (gather ofElement? elements) with ⟨turns, _ | fault⟩
  · exact runFrom_resolve_of_replay hreplay
  · exact runFrom_resolve_of_replay_failed hreplay

end Manuscript
