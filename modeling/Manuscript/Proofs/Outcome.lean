import Manuscript.Fault
import Mathlib.Data.List.Forall2

namespace Manuscript

abbrev Stateful (σ : Type) := ExceptT Fault (StateM σ)

variable {σ α β : Type}

theorem bind_eq_ok {outcome : Except Fault α} {next : α → Except Fault β} {b : β} :
    outcome >>= next = .ok b ↔ ∃ a, outcome = .ok a ∧ next a = .ok b := by
  cases outcome with
  | error fault => exact ⟨fun h => (by cases h), fun ⟨_, h, _⟩ => (by cases h)⟩
  | ok a => exact ⟨fun h => ⟨a, rfl, h⟩, fun ⟨_, h, hb⟩ => (by cases h; exact hb)⟩

theorem mapM_eq_ok_iff {f : α → Except Fault β} {as : List α} {bs : List β} :
    as.mapM f = .ok bs ↔ List.Forall₂ (fun a b => f a = .ok b) as bs := by
  induction as generalizing bs with
  | nil =>
    rw [List.forall₂_nil_left_iff]
    exact ⟨fun h => (Except.ok.inj h).symm, fun h => h ▸ rfl⟩
  | cons a as ih =>
    rw [List.mapM_cons, bind_eq_ok, List.forall₂_cons_left_iff]
    refine exists_congr fun b => ⟨fun ⟨hb, h⟩ => ?_, fun ⟨bs, hb, hbs, h⟩ => ⟨hb, ?_⟩⟩
    · obtain ⟨others, hothers, h⟩ := bind_eq_ok.mp h
      exact ⟨others, hb, ih.mp hothers, (Except.ok.inj h).symm⟩
    · rw [ih.mpr hbs, h]
      rfl

theorem mapM_eq_error {f : α → Except Fault β} {before after : List α} {a : α}
    {fault : Fault} (hbefore : ∀ b ∈ before, ∃ c, f b = .ok c) (ha : f a = .error fault) :
    (before ++ a :: after).mapM f = .error fault := by
  induction before with
  | nil => rw [List.nil_append, List.mapM_cons, ha]; rfl
  | cons b before ih =>
    obtain ⟨⟨c, hc⟩, hbefore⟩ := List.forall_mem_cons.mp hbefore
    rw [List.cons_append, List.mapM_cons, hc, ih hbefore]
    rfl

theorem length_of_mapM_ok {f : α → Except Fault β} {as : List α} {bs : List β}
    (h : as.mapM f = .ok bs) : bs.length = as.length :=
  (mapM_eq_ok_iff.mp h).length_eq.symm

theorem forall_of_mapM_ok {f : α → Except Fault β} {p : α → Prop} {q : β → Prop}
    (hf : ∀ a b, p a → f a = .ok b → q b) {as : List α} {bs : List β} (h : as.mapM f = .ok bs)
    (has : ∀ a ∈ as, p a) : ∀ b ∈ bs, q b := by
  induction mapM_eq_ok_iff.mp h with
  | nil => exact fun _ hb => absurd hb List.not_mem_nil
  | cons hb hothers ih =>
    obtain ⟨ha, has⟩ := List.forall_mem_cons.mp has
    exact List.forall_mem_cons.mpr ⟨hf _ _ ha hb, ih (mapM_eq_ok_iff.mpr hothers) has⟩

theorem mapM_ok_of_forall {f : α → Except Fault β} {as : List α}
    (h : ∀ a ∈ as, ∃ b, f a = .ok b) : ∃ bs, as.mapM f = .ok bs := by
  induction as with
  | nil => exact ⟨[], rfl⟩
  | cons a as ih =>
    obtain ⟨⟨b, hb⟩, has⟩ := List.forall_mem_cons.mp h
    obtain ⟨bs, hbs⟩ := ih has
    exact ⟨b :: bs, by rw [List.mapM_cons, hb, hbs]; rfl⟩

def runFrom (s : σ) (action : Stateful σ α) : Except Fault α × σ := action.run.run s

@[simp] theorem runFrom_pure (s : σ) (a : α) : runFrom s (pure a) = (.ok a, s) := rfl

@[simp] theorem runFrom_mk (s : σ) (f : StateM σ (Except Fault α)) :
    runFrom s (ExceptT.mk f) = f.run s := rfl

@[simp] theorem runFrom_lift (s : σ) (action : StateM σ α) :
    runFrom s (monadLift action : Stateful σ α) =
      (.ok (action.run s).1, (action.run s).2) := rfl

theorem runFrom_bind (s : σ) (action : Stateful σ α) (next : α → Stateful σ β) :
    runFrom s (action >>= next) =
      match runFrom s action with
      | (.ok a, s') => runFrom s' (next a)
      | (.error fault, s') => (.error fault, s') := by
  simp only [runFrom, ExceptT.run_bind, StateT.run_bind]
  cases h : action.run.run s with
  | mk outcome s' => cases outcome <;> rfl

theorem runFrom_bind_ok {s s' : σ} {action : Stateful σ α} {a : α}
    (h : runFrom s action = (.ok a, s')) (next : α → Stateful σ β) :
    runFrom s (action >>= next) = runFrom s' (next a) := by
  rw [runFrom_bind, h]

theorem runFrom_bind_error {s s' : σ} {action : Stateful σ α} {fault : Fault}
    (h : runFrom s action = (.error fault, s')) (next : α → Stateful σ β) :
    runFrom s (action >>= next) = (.error fault, s') := by
  rw [runFrom_bind, h]

theorem runFrom_bind_eq_ok {s s'' : σ} {action : Stateful σ α} {next : α → Stateful σ β} {b : β} :
    runFrom s (action >>= next) = (.ok b, s'') ↔
      ∃ a s', runFrom s action = (.ok a, s') ∧ runFrom s' (next a) = (.ok b, s'') := by
  rw [runFrom_bind]
  constructor
  · intro h
    split at h
    · next a s' ha => exact ⟨a, s', ha, h⟩
    · simp at h
  · rintro ⟨a, s', ha, h⟩
    rw [ha]
    exact h

theorem runFrom_map (s : σ) (f : α → β) (action : Stateful σ α) :
    runFrom s (f <$> action) = ((runFrom s action).1.map f, (runFrom s action).2) := by
  rw [map_eq_pure_bind, runFrom_bind]
  split <;> next h => rw [h]; rfl

def Returns (action : Stateful σ α) (q : α → Prop) : Prop :=
  ∀ s s' a, runFrom s action = (.ok a, s') → q a

namespace Returns

variable {action : Stateful σ α} {q : α → Prop} {r : β → Prop}

theorem any (action : Stateful σ α) : Returns action fun _ => True :=
  fun _ _ _ _ => trivial

theorem pure {a : α} (h : q a) : Returns (Pure.pure a : Stateful σ α) q := by
  intro s s' b hrun
  cases hrun
  exact h

theorem bind {next : α → Stateful σ β} (h : Returns action q)
    (hnext : ∀ a, q a → Returns (next a) r) : Returns (action >>= next) r := by
  intro s s' b hrun
  obtain ⟨a, s₁, ha, hb⟩ := runFrom_bind_eq_ok.mp hrun
  exact hnext a (h _ _ _ ha) _ _ _ hb

end Returns

end Manuscript
