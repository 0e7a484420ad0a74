import Manuscript.Element.Walk

namespace Manuscript

theorem sequence_induction {P : List Element → Prop}
    (step : ∀ elements,
      (∀ element ∈ elements, ∀ sequence ∈ element.children, P sequence) → P elements)
    (elements : List Element) : P elements := by
  induction h : sizeOf elements using Nat.strongRecOn generalizing elements with
  | ind n ih =>
    refine step elements fun element he sequence hs => ?_
    have hlt := Nat.lt_trans (Element.sizeOf_lt_of_mem_children hs) (List.sizeOf_lt_of_mem he)
    exact ih _ (h ▸ hlt) sequence rfl

section Gather

variable {ε : Type} (event? : Element → Option ε)

def gather (elements : List Element) : List ε :=
  elements.attach.flatMap fun ⟨element, _⟩ =>
    match event? element with
    | some event => [event]
    | none => element.children.attach.flatMap fun ⟨sequence, _⟩ => gather sequence
termination_by sizeOf elements
decreasing_by
  exact Nat.lt_trans (Element.sizeOf_lt_of_mem_children ‹_›) (List.sizeOf_lt_of_mem ‹_›)

def Element.gather (element : Element) : List ε :=
  match event? element with
  | some event => [event]
  | none => element.children.flatMap (Manuscript.gather event?)

theorem flatMap_attach_val {α β : Type} (l : List α) (f : α → List β) :
    l.attach.flatMap (fun x => f x.1) = l.flatMap f := by
  have h := List.flatMap_map (fun x : { a // a ∈ l } => x.1) f (l := l.attach)
  rw [List.attach_map_subtype_val] at h
  exact h.symm

theorem gather_eq (elements : List Element) :
    gather event? elements = elements.flatMap (Element.gather event?) := by
  rw [gather, ← flatMap_attach_val elements]
  congr 1
  funext ⟨element, h⟩
  simp only [Element.gather, ← flatMap_attach_val element.children]

theorem gather_nil : gather event? [] = [] := by
  rw [gather_eq, List.flatMap_nil]

theorem gather_cons (element : Element) (rest : List Element) :
    gather event? (element :: rest) = element.gather event? ++ gather event? rest := by
  rw [gather_eq, gather_eq, List.flatMap_cons]

theorem gather_append (xs ys : List Element) :
    gather event? (xs ++ ys) = gather event? xs ++ gather event? ys := by
  rw [gather_eq, gather_eq, gather_eq, List.flatMap_append]

theorem gather_flatten (sequences : List (List Element)) :
    gather event? sequences.flatten = sequences.flatMap (gather event?) := by
  induction sequences with
  | nil => exact gather_nil _
  | cons s rest ih => rw [List.flatten_cons, gather_append, ih, List.flatMap_cons]

theorem Element.gather_eq_nil_iff {x : Element} : x.gather event? = [] ↔
    event? x = none ∧ ∀ s ∈ x.children, Manuscript.gather event? s = [] := by
  rw [Element.gather]
  cases event? x with
  | some event => simp
  | none => rw [List.flatMap_eq_nil_iff, eq_self_iff_true, true_and]

inductive Visited (x : Element) : List Element → Prop
  | here {elements : List Element} : x ∈ elements → Visited x elements
  | inside {elements s : List Element} {y : Element} :
      y ∈ elements → s ∈ y.children → Visited x s → Visited x elements

theorem gather_eq_nil_iff {elements : List Element} :
    gather event? elements = [] ↔ ∀ x, Visited x elements → event? x = none := by
  induction elements using sequence_induction with
  | step elements ih =>
    rw [gather_eq, List.flatMap_eq_nil_iff]
    constructor
    · intro h x hx
      cases hx with
      | here hmem => exact ((Element.gather_eq_nil_iff event?).mp (h x hmem)).1
      | @inside _ s y hy hs hvisited =>
        have hnil := ((Element.gather_eq_nil_iff event?).mp (h y hy)).2 s hs
        exact (ih y hy s hs).mp hnil x hvisited
    · intro h y hy
      refine (Element.gather_eq_nil_iff event?).mpr ⟨h y (.here hy), fun s hs => ?_⟩
      exact (ih y hy s hs).mpr fun x hx => h x (.inside hy hs hx)

theorem visited_of_mem_gather {elements : List Element} {event : ε}
    (h : event ∈ gather event? elements) : ∃ x, Visited x elements ∧ event? x = some event := by
  induction elements using sequence_induction with
  | step elements ih =>
    rw [gather_eq, List.mem_flatMap] at h
    obtain ⟨y, hy, h⟩ := h
    rw [Element.gather] at h
    cases hevent : event? y with
    | some first =>
      rw [hevent] at h
      exact ⟨y, .here hy, List.mem_singleton.mp h ▸ hevent⟩
    | none =>
      rw [hevent] at h
      obtain ⟨s, hs, h⟩ := List.mem_flatMap.mp h
      obtain ⟨x, hvisited, hx⟩ := ih y hy s hs h
      exact ⟨x, .inside hy hs hvisited, hx⟩

theorem mem_gather_of_visited {elements : List Element} {x : Element} {event : ε}
    (hleaf : ∀ y first, event? y = some first → y.children = [])
    (hvisited : Visited x elements) (hx : event? x = some event) : event ∈ gather event? elements := by
  induction hvisited with
  | here hmem =>
    rw [gather_eq, List.mem_flatMap]
    refine ⟨x, hmem, ?_⟩
    rw [Element.gather, hx]
    exact List.mem_singleton_self event
  | @inside _ s y hy hs _ ih =>
    rw [gather_eq, List.mem_flatMap]
    refine ⟨y, hy, ?_⟩
    rw [Element.gather]
    cases hevent : event? y with
    | some first =>
      rw [hleaf y first hevent] at hs
      cases hs
    | none => exact List.mem_flatMap.mpr ⟨s, hs, ih⟩

end Gather

section Replay

variable {m : Type → Type} [Monad m] {ε : Type}

abbrev Supply := StateM (List Element)

def takeNext : Supply Element :=
  modifyGet fun
    | [] => (.blankLine, [])
    | element :: rest => (element, rest)

def Replays (act : ε → m Element) (events : List ε) {α : Type} (action : m α)
    (rebuild : Supply α) : Prop :=
  (fun a rest => (a, rest)) <$> action =
    (fun outcomes rest => rebuild.run (outcomes ++ rest)) <$> events.mapM act

namespace Replays

variable [LawfulMonad m] {act : ε → m Element}

theorem pure {α : Type} (a : α) :
    Replays act [] (Pure.pure a : m α) (Pure.pure a : Supply α) := by
  simp only [Replays, map_pure, List.mapM_nil, List.nil_append]
  rfl

theorem next (event : ε) : Replays act [event] (act event) takeNext := by
  simp only [Replays, List.mapM_cons, List.mapM_nil, bind_pure_comp, map_pure, Functor.map_map]
  rfl

theorem map {α β : Type} {events : List ε} {action : m α} {rebuild : Supply α}
    (h : Replays act events action rebuild) (f : α → β) :
    Replays act events (f <$> action) (f <$> rebuild) := by
  have hf := congrArg (Functor.map fun g rest => (f (g rest).1, (g rest).2)) h
  simp only [Functor.map_map] at hf
  simp only [Replays, Functor.map_map]
  exact hf

theorem seq {α β : Type} {es₁ es₂ : List ε} {x : m α} {y : m β} {c : Supply α} {d : Supply β}
    (hx : Replays act es₁ x c) (hy : Replays act es₂ y d) {γ : Type} (f : α → β → γ) :
    Replays act (es₁ ++ es₂) (do let a ← x; let b ← y; Pure.pure (f a b))
      (do let a ← c; let b ← d; Pure.pure (f a b)) := by
  have hx' := congrArg (fun w => w >>= fun g => es₂.mapM act >>= fun outcomes =>
    (Pure.pure fun rest =>
      let p := g (outcomes ++ rest)
      let q := d.run p.2
      (f p.1 q.1, q.2) : m (List Element → γ × List Element))) hx
  have hy' (a : α) := congrArg (Functor.map fun g rest => (f a (g rest).1, (g rest).2)) hy
  simp only [Functor.map_map, bind_map_left, bind_pure_comp] at hx' hy'
  simp only [Replays, List.mapM_append, map_bind, bind_pure_comp, Functor.map_map,
    List.append_assoc]
  calc
    _ = x >>= fun a => (fun outcomes rest =>
          (f a (d.run (outcomes ++ rest)).1, (d.run (outcomes ++ rest)).2)) <$> es₂.mapM act :=
        congrArg (x >>= ·) (funext hy')
    _ = _ := hx'

theorem mapM {α β : Type} {l : List α} {events : α → List ε} {f : α → m β} {g : α → Supply β}
    (h : ∀ a ∈ l, Replays act (events a) (f a) (g a)) :
    Replays act (l.flatMap events) (l.mapM f) (l.mapM g) := by
  induction l with
  | nil => simpa only [List.flatMap_nil, List.mapM_nil] using pure []
  | cons a l ih =>
    have head := h a List.mem_cons_self
    have tail := ih fun b hb => h b (List.mem_cons_of_mem a hb)
    simpa only [List.flatMap_cons, List.mapM_cons] using head.seq tail List.cons

end Replays

variable (event? : Element → Option ε) (finish : List Element → List Element)

def rebuild (elements : List Element) : Supply (List Element) :=
  walkM (fun element => (event? element).map fun _ => takeNext) finish elements

theorem walkM_replays [LawfulMonad m] (act : ε → m Element) (elements : List Element) :
    Replays act (gather event? elements)
      (walkM (fun element => (event? element).map act) finish elements)
      (rebuild event? finish elements) := by
  induction elements using sequence_induction with
  | step elements ih =>
    rw [gather_eq, rebuild, walkM_eq, walkM_eq]
    refine (Replays.mapM fun element he => ?_).map finish
    rw [Element.gather]
    cases event? element with
    | some event => exact .next event
    | none => exact (Replays.mapM (ih element he)).map _

theorem walkM_eq_replay [LawfulMonad m] (act : ε → m Element) (elements : List Element) :
    walkM (fun element => (event? element).map act) finish elements =
      (fun outcomes => ((rebuild event? finish elements).run outcomes).1) <$>
        (gather event? elements).mapM act := by
  have h := congrArg (Functor.map fun g => (g []).1) (walkM_replays event? finish act elements)
  simpa only [Functor.map_map, List.append_nil, id_map'] using h

def substituted (f : ε → Element) (elements : List Element) : List Element :=
  walkM (m := Id) (fun element => (event? element).map f) finish elements

theorem rebuild_map (f : ε → Element) (elements : List Element) :
    ((rebuild event? finish elements).run ((gather event? elements).map f)).1 =
      substituted event? finish f elements := by
  have h := walkM_eq_replay (m := Id) event? finish f elements
  have hf : (gather event? elements).mapM (m := Id) f = (gather event? elements).map f :=
    List.mapM_pure
  rw [hf] at h
  exact h.symm

theorem substituted_eq (f : ε → Element) (elements : List Element) :
    substituted event? finish f elements = finish (elements.map fun element =>
      match event? element with
      | some event => f event
      | none => element.withChildren (element.children.map (substituted event? finish f))) := by
  have mapM_id {α β : Type} (g : α → β) (l : List α) : l.mapM (m := Id) g = l.map g :=
    List.mapM_pure
  have h := walkM_eq (m := Id) (fun element => (event? element).map f) finish elements
  rw [mapM_id] at h
  refine h.trans (congrArg finish (List.map_congr_left fun element _ => ?_))
  cases event? element with
  | some event => rfl
  | none => exact congrArg element.withChildren (mapM_id ..)

theorem substituted_congr {f g : ε → Element} {elements : List Element}
    (h : ∀ event ∈ gather event? elements, f event = g event) :
    substituted event? finish f elements = substituted event? finish g elements := by
  rw [← rebuild_map, ← rebuild_map, List.map_congr_left h]

theorem substituted_of_gather_eq_nil {elements : List Element} (h : gather event? elements = [])
    (f : ε → Element) : substituted event? id f elements = elements := by
  induction elements using sequence_induction with
  | step elements ih =>
    rw [substituted_eq, id, List.map_congr_left, List.map_id]
    intro element he
    rw [gather_eq, List.flatMap_eq_nil_iff] at h
    obtain ⟨hnone, hnil⟩ := (Element.gather_eq_nil_iff event?).mp (h element he)
    have hchildren : element.children.map (substituted event? id f) = element.children := by
      rw [List.map_congr_left, List.map_id]
      exact fun s hs => ih element he s hs (hnil s hs)
    rw [hnone]
    exact (congrArg element.withChildren hchildren).trans element.withChildren_children

end Replay

end Manuscript
