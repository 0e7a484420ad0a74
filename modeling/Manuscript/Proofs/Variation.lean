import Mathlib.Data.List.Forall2
import Manuscript.Element.Walk
import Manuscript.Substitution.Reserved

namespace Manuscript

def Value.accepted : Value → Bool
  | .string s => !Reserved.isIn s
  | _ => true

namespace Element

def declared? : Element → Option (String × Value)
  | .declaration name value => some (name, value)
  | .reset name => some (name, .nil)
  | _ => none

theorem eq_of_declared? {x : Element} {name : String} {value : Value}
    (h : x.declared? = some (name, value)) :
    x = .declaration name value ∨ (x = .reset name ∧ value = .nil) := by
  cases x
  case declaration =>
    cases h
    exact .inl rfl
  case reset =>
    cases h
    exact .inr ⟨rfl, rfl⟩
  all_goals cases h

inductive Varies (shadowed : String → Bool) : Element → Element → Prop
  | same {x : Element} : Varies shadowed x x
  | declared {x y : Element} {name : String} {value value' : Value} :
      x.declared? = some (name, value) → y.declared? = some (name, value') → shadowed name →
      value.accepted → value'.accepted → Varies shadowed x y
  | elementBlock {kind : BlockKind} {attributes : Attributes} {xs ys : List Element} :
      List.Forall₂ (Varies shadowed) xs ys →
      Varies shadowed (.elementBlock kind attributes xs) (.elementBlock kind attributes ys)
  | sectionBlock {level : UInt8} {attributes : Attributes} {title xs ys : List Element} :
      List.Forall₂ (Varies shadowed) xs ys →
      Varies shadowed (.sectionBlock level attributes title xs)
        (.sectionBlock level attributes title ys)
  | listItem {marker : Marker} {attributes : Attributes} {xs ys : List Element} :
      List.Forall₂ (Varies shadowed) xs ys →
      Varies shadowed (.listItem marker attributes xs) (.listItem marker attributes ys)
  | labeledItem {level : UInt8} {term xs ys : List Element} {attributes : Attributes} :
      List.Forall₂ (Varies shadowed) xs ys →
      Varies shadowed (.labeledItem level term attributes xs) (.labeledItem level term attributes ys)
  | continued {offset : Int32} {x y : Element} :
      Varies shadowed x y → Varies shadowed (.continued offset x) (.continued offset y)

variable {shadowed : String → Bool} {x y : Element} {xs : List Element}

theorem varies_refl (xs : List Element) : List.Forall₂ (Varies shadowed) xs xs :=
  List.forall₂_same.mpr fun _ _ => .same

theorem Varies.of_paragraph {attributes : Attributes} {lines : List Line}
    (h : Varies shadowed (.paragraph attributes lines) y) : y = .paragraph attributes lines := by
  cases h with
  | same => rfl
  | declared hx => cases hx

theorem Varies.of_lineBlock {kind : BlockKind} {attributes : Attributes} {lines : List Line}
    (h : Varies shadowed (.lineBlock kind attributes lines) y) :
    y = .lineBlock kind attributes lines := by
  cases h with
  | same => rfl
  | declared hx => cases hx

theorem Varies.of_elementBlock {kind : BlockKind} {attributes : Attributes}
    (h : Varies shadowed (.elementBlock kind attributes xs) y) :
    ∃ ys, y = .elementBlock kind attributes ys ∧ List.Forall₂ (Varies shadowed) xs ys := by
  cases h with
  | same => exact ⟨xs, rfl, varies_refl xs⟩
  | declared hx => cases hx
  | elementBlock hxs => exact ⟨_, rfl, hxs⟩

theorem Varies.of_sectionBlock {level : UInt8} {attributes : Attributes} {title : List Element}
    (h : Varies shadowed (.sectionBlock level attributes title xs) y) :
    ∃ ys, y = .sectionBlock level attributes title ys ∧ List.Forall₂ (Varies shadowed) xs ys := by
  cases h with
  | same => exact ⟨xs, rfl, varies_refl xs⟩
  | declared hx => cases hx
  | sectionBlock hxs => exact ⟨_, rfl, hxs⟩

theorem Varies.of_listItem {marker : Marker} {attributes : Attributes}
    (h : Varies shadowed (.listItem marker attributes xs) y) :
    ∃ ys, y = .listItem marker attributes ys ∧ List.Forall₂ (Varies shadowed) xs ys := by
  cases h with
  | same => exact ⟨xs, rfl, varies_refl xs⟩
  | declared hx => cases hx
  | listItem hxs => exact ⟨_, rfl, hxs⟩

theorem Varies.of_labeledItem {level : UInt8} {term : List Element} {attributes : Attributes}
    (h : Varies shadowed (.labeledItem level term attributes xs) y) :
    ∃ ys, y = .labeledItem level term attributes ys ∧ List.Forall₂ (Varies shadowed) xs ys := by
  cases h with
  | same => exact ⟨xs, rfl, varies_refl xs⟩
  | declared hx => cases hx
  | labeledItem hxs => exact ⟨_, rfl, hxs⟩

theorem Varies.of_continued {offset : Int32} (h : Varies shadowed (.continued offset x) y) :
    ∃ y', y = .continued offset y' ∧ Varies shadowed x y' := by
  cases h with
  | same => exact ⟨x, rfl, .same⟩
  | declared hx => cases hx
  | continued hx => exact ⟨_, rfl, hx⟩

mutual

theorem Varies.eq_of_none (hnone : ∀ name, shadowed name = false) {x y : Element}
    (h : Varies shadowed x y) : x = y :=
  match h with
  | .same => rfl
  | .declared _ _ hname _ _ => by simp [hnone] at hname
  | .elementBlock hxs => by rw [eq_of_forall₂_varies hnone hxs]
  | .sectionBlock hxs => by rw [eq_of_forall₂_varies hnone hxs]
  | .listItem hxs => by rw [eq_of_forall₂_varies hnone hxs]
  | .labeledItem hxs => by rw [eq_of_forall₂_varies hnone hxs]
  | .continued hx => by rw [hx.eq_of_none hnone]

theorem eq_of_forall₂_varies (hnone : ∀ name, shadowed name = false) {xs ys : List Element}
    (h : List.Forall₂ (Varies shadowed) xs ys) : xs = ys :=
  match h with
  | .nil => rfl
  | .cons hx hxs => by rw [hx.eq_of_none hnone, eq_of_forall₂_varies hnone hxs]

end

end Element

def Joint {m : Type → Type} [Functor m] {α β : Type} (Q : α → β → Prop) (x : m α) (y : m β) : Prop :=
  ∃ z : m { p : α × β // Q p.1 p.2 }, (·.1.1) <$> z = x ∧ (·.1.2) <$> z = y

namespace Joint

variable {m : Type → Type} [Monad m] [LawfulMonad m] {α β γ δ : Type} {Q : α → β → Prop}
  {P : γ → δ → Prop} {x : m α} {y : m β}

theorem pure {a : α} {b : β} (h : Q a b) : Joint Q (Pure.pure a : m α) (Pure.pure b : m β) :=
  ⟨Pure.pure ⟨(a, b), h⟩, map_pure .., map_pure ..⟩

theorem refl {Q : α → α → Prop} (h : ∀ a, Q a a) (x : m α) : Joint Q x x := by
  refine ⟨(fun a => ⟨(a, a), h a⟩) <$> x, ?_, ?_⟩
  · rw [Functor.map_map, id_map']
  · rw [Functor.map_map, id_map']

theorem bind {f : α → m γ} {g : β → m δ} (h : Joint Q x y)
    (hnext : ∀ a b, Q a b → Joint P (f a) (g b)) : Joint P (x >>= f) (y >>= g) := by
  obtain ⟨z, rfl, rfl⟩ := h
  choose next hf hg using fun p : { p : α × β // Q p.1 p.2 } => hnext p.1.1 p.1.2 p.2
  refine ⟨z >>= next, ?_, ?_⟩
  · simp only [map_bind, hf, bind_map_left]
  · simp only [map_bind, hg, bind_map_left]

theorem bind_same (x : m α) {f : α → m γ} {g : α → m δ} (hnext : ∀ a, Joint P (f a) (g a)) :
    Joint P (x >>= f) (x >>= g) :=
  (refl (fun _ => rfl) x).bind fun a _ hab => hab ▸ hnext a

theorem map {f : α → γ} {g : β → δ} (h : Joint Q x y) (hfg : ∀ a b, Q a b → P (f a) (g b)) :
    Joint P (f <$> x) (g <$> y) := by
  rw [map_eq_pure_bind, map_eq_pure_bind]
  exact h.bind fun a b hq => .pure (hfg a b hq)

end Joint

inductive Matched {α β : Type} (Q : α → β → Prop) : Except Fault α → Except Fault β → Prop
  | ok {a : α} {b : β} : Q a b → Matched Q (.ok a) (.ok b)
  | error {fault : Fault} : Matched Q (.error fault) (.error fault)

theorem Matched.map {α β γ δ : Type} {Q : α → β → Prop} {P : γ → δ → Prop} {x : Except Fault α}
    {y : Except Fault β} {f : α → γ} {g : β → δ} (h : Matched Q x y)
    (hfg : ∀ a b, Q a b → P (f a) (g b)) : Matched P (x.map f) (y.map g) := by
  cases h with
  | ok hq => exact .ok (hfg _ _ hq)
  | error => exact .error

theorem Joint.matched {α β : Type} {Q : α → β → Prop} {x : Except Fault α} {y : Except Fault β}
    (h : Joint Q x y) : Matched Q x y := by
  obtain ⟨z, rfl, rfl⟩ := h
  cases z with
  | ok p => exact .ok p.2
  | error fault => exact .error

theorem Joint.run {σ α β : Type} {Q : α → β → Prop} {x : StateM σ α} {y : StateM σ β}
    (h : Joint Q x y) (s : σ) : Q (x.run s).1 (y.run s).1 ∧ (x.run s).2 = (y.run s).2 := by
  obtain ⟨z, rfl, rfl⟩ := h
  exact ⟨(z.run s).1.2, rfl⟩

section Walk

variable {m : Type → Type} [Monad m] [LawfulMonad m] {visit : Element → Option (m Element)}
  {shadowed : String → Bool}

theorem Element.mapChildrenM_of_declared {f : List Element → m (List Element)} {x : Element}
    {name : String} {value : Value} (h : x.declared? = some (name, value)) :
    x.mapChildrenM f = pure x := by
  obtain rfl | ⟨rfl, rfl⟩ := eq_of_declared? h
  · exact map_pure ..
  · exact map_pure ..

theorem walkM_cons (x : Element) (xs : List Element) :
    walkM visit id (x :: xs) =
      (visit x).getD (x.mapChildrenM (walkM visit id)) >>= fun y =>
        walkM visit id xs >>= fun ys => pure (y :: ys) := by
  rw [walkM_eq, walkM_eq, id_map, id_map, List.mapM_cons]
  cases visit x <;> rfl

open Element

mutual

theorem joint_mapChildrenM (hvisit : ∀ x y, Varies shadowed x y → visit x = visit y)
    {x y : Element} (h : Varies shadowed x y) :
    Joint (Varies shadowed) (x.mapChildrenM (walkM visit id)) (y.mapChildrenM (walkM visit id)) :=
  match h with
  | .same => .refl (fun _ => .same) _
  | .declared hx hy hname hvalue hvalue' => by
    rw [mapChildrenM_of_declared hx, mapChildrenM_of_declared hy]
    exact .pure (.declared hx hy hname hvalue hvalue')
  | .elementBlock helements => by
    simp only [mapChildrenM, children, List.mapM_cons, List.mapM_nil, pure_bind, map_bind, map_pure]
    exact (joint_walk hvisit helements).bind fun _ _ hbody => .pure (Varies.elementBlock hbody)
  | .sectionBlock helements => by
    simp only [mapChildrenM, children, List.mapM_cons, List.mapM_nil, pure_bind, bind_assoc, map_bind,
      map_pure]
    exact .bind_same _ fun _ =>
      (joint_walk hvisit helements).bind fun _ _ hbody => .pure (Varies.sectionBlock hbody)
  | .listItem helements => by
    simp only [mapChildrenM, children, List.mapM_cons, List.mapM_nil, pure_bind, map_bind, map_pure]
    exact (joint_walk hvisit helements).bind fun _ _ hbody => .pure (Varies.listItem hbody)
  | .labeledItem helements => by
    simp only [mapChildrenM, children, List.mapM_cons, List.mapM_nil, pure_bind, bind_assoc, map_bind,
      map_pure]
    exact .bind_same _ fun _ =>
      (joint_walk hvisit helements).bind fun _ _ hbody => .pure (Varies.labeledItem hbody)
  | @Varies.continued _ offset _ _ hinside => by
    have hmap (x : Element) : (Element.continued offset x).mapChildrenM (walkM visit id) =
        .continued offset <$> x.mapChildrenM (walkM visit id) := by
      rw [mapChildrenM, mapChildrenM, Functor.map_map]
      rfl
    rw [hmap, hmap]
    exact (joint_mapChildrenM hvisit hinside).map fun _ _ hinner => .continued hinner

theorem joint_walk (hvisit : ∀ x y, Varies shadowed x y → visit x = visit y)
    {xs ys : List Element} (h : List.Forall₂ (Varies shadowed) xs ys) :
    Joint (List.Forall₂ (Varies shadowed)) (walkM visit id xs) (walkM visit id ys) :=
  match h with
  | .nil => .refl (fun _ => varies_refl _) _
  | @List.Forall₂.cons _ _ _ x y _ _ hx hxs => by
    rw [walkM_cons, walkM_cons, hvisit x y hx]
    refine Joint.bind (Q := Varies shadowed) ?_ fun a b hab =>
      (joint_walk hvisit hxs).bind fun _ _ hrest => .pure (List.Forall₂.cons hab hrest)
    cases visit y with
    | some action => exact .refl (fun _ => .same) action
    | none => exact joint_mapChildrenM hvisit hx

end

end Walk

end Manuscript
