import Manuscript.Element.Children

namespace Manuscript

variable {m : Type → Type} [Monad m]

def walkM (visit : Element → Option (m Element)) (finish : List Element → List Element)
    (elements : List Element) : m (List Element) :=
  finish <$> elements.attach.mapM fun ⟨element, _⟩ =>
    match visit element with
    | some action => action
    | none =>
        element.withChildren <$> element.children.attach.mapM fun ⟨sequence, _⟩ =>
          walkM visit finish sequence
termination_by sizeOf elements
decreasing_by
  exact Nat.lt_trans (Element.sizeOf_lt_of_mem_children ‹_›) (List.sizeOf_lt_of_mem ‹_›)

theorem mapM_attach_val [LawfulMonad m] {α β : Type} (l : List α) (f : α → m β) :
    l.attach.mapM (fun x => f x.1) = l.mapM f := by
  have h := List.mapM_map (f := (·.1)) (g := f) (l := l.attach)
  rw [List.attach_map_subtype_val] at h
  exact h.symm

theorem walkM_eq [LawfulMonad m] (visit : Element → Option (m Element))
    (finish : List Element → List Element) (elements : List Element) :
    walkM visit finish elements = finish <$> elements.mapM fun element =>
      match visit element with
      | some action => action
      | none => element.mapChildrenM (walkM visit finish) := by
  rw [walkM, ← mapM_attach_val elements]
  congr 2
  funext ⟨element, h⟩
  simp only [Element.mapChildrenM, ← mapM_attach_val element.children]

end Manuscript
