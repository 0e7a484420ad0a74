import Mathlib.Data.List.Chain
import Manuscript.Proofs.Everywhere
import Manuscript.Proofs.Placeholder.Restoration

namespace Manuscript

theorem eq_text_of_isText {element : Element} (h : element.isText) : ∃ s, element = .text s := by
  cases element <;> first | exact ⟨_, rfl⟩ | cases h

theorem ne_text_of_not_isText {element : Element} (h : element.isText = false) (s : String) :
    element ≠ .text s := by
  rintro rfl
  cases h

theorem not_isText_of_ne {element : Element} (h : ∀ s, element = .text s → False) :
    element.isText = false := by
  cases element <;> first | rfl | exact (h _ rfl).elim

theorem Element.isText_withChildren (x : Element) (sequences : List (List Element)) :
    (x.withChildren sequences).isText = x.isText := by
  fun_cases withChildren x sequences <;> rfl

theorem merge_cons {element : Element} (h : element.isText = false) (rest : List Element) :
    merge (element :: rest) = element :: merge rest :=
  merge.eq_3 _ _ (ne_text_of_not_isText h)

structure Merged (xs : List Element) : Prop where
  nonempty : .text "" ∉ xs
  apart : xs.IsChain fun x y => x.isText = false ∨ y.isText = false

namespace Merged

variable {x : Element} {xs ys : List Element} {s : String}

theorem nil : Merged [] := ⟨List.not_mem_nil, .nil⟩

theorem cons_iff : Merged (x :: xs) ↔
    x ≠ .text "" ∧ (∀ y ∈ xs.head?, x.isText = false ∨ y.isText = false) ∧ Merged xs := by
  constructor
  · rintro ⟨hne, hapart⟩
    obtain ⟨hx, hxs⟩ := List.ne_and_not_mem_of_not_mem_cons hne
    obtain ⟨hhead, htail⟩ := List.isChain_cons.mp hapart
    exact ⟨hx.symm, hhead, hxs, htail⟩
  · rintro ⟨hx, hhead, hxs, htail⟩
    exact ⟨List.not_mem_cons_of_ne_of_not_mem hx.symm hxs, List.isChain_cons.mpr ⟨hhead, htail⟩⟩

theorem cons_other (hx : x.isText = false) (h : Merged xs) : Merged (x :: xs) :=
  cons_iff.mpr ⟨ne_text_of_not_isText hx "", fun _ _ => .inl hx, h⟩

theorem tail (h : Merged (x :: xs)) : Merged xs := (cons_iff.mp h).2.2

theorem append (hxs : Merged xs) (hys : Merged ys) (h : ∀ y ∈ ys.head?, y.isText = false) :
    Merged (xs ++ ys) where
  nonempty := List.not_mem_append hxs.nonempty hys.nonempty
  apart := List.isChain_append.mpr ⟨hxs.apart, hys.apart, fun _ _ y hy => .inr (h y hy)⟩

theorem map {f : Element → Element} (h : Merged xs)
    (hf : ∀ x ∈ xs, f x = x ∨ x.isText = false ∧ (f x).isText = false) : Merged (xs.map f) := by
  have hkind (x : Element) (hx : x ∈ xs) : (f x).isText = x.isText := by
    rcases hf x hx with he | ⟨hbefore, hafter⟩
    · rw [he]
    · rw [hbefore, hafter]
  refine ⟨fun hmem => ?_, (List.isChain_map f).mpr ?_⟩
  · obtain ⟨x, hx, he⟩ := List.mem_map.mp hmem
    rcases hf x hx with hsame | ⟨-, hafter⟩
    · exact h.nonempty (hsame.symm.trans he ▸ hx)
    · exact ne_text_of_not_isText hafter "" he
  · refine h.apart.imp_of_mem_imp fun x y hx hy hxy => ?_
    rwa [hkind x hx, hkind y hy]

theorem text (hs : s ≠ "") : Merged [.text s] :=
  cons_iff.mpr ⟨fun he => hs (Element.text.inj he), fun _ => nofun, nil⟩

theorem around_text (h : Merged (xs ++ .text s :: ys)) :
    (∀ x ∈ xs.getLast?, x.isText = false) ∧ ∀ y ∈ ys.head?, y.isText = false := by
  obtain ⟨-, hrest, hlast⟩ := List.isChain_append.mp h.apart
  refine ⟨fun x hx => (hlast x hx _ rfl).resolve_right (by simp [Element.isText]), fun y hy => ?_⟩
  exact ((List.isChain_cons.mp hrest).1 y hy).resolve_left (by simp [Element.isText])

end Merged

section

variable {xs : List Element} {s : String}

theorem pushText_of_apart (hs : s ≠ "") (h : ∀ x ∈ xs.head?, x.isText = false) :
    pushText s xs = .text s :: xs := by
  have hnot (t : String) (rest : List Element) : xs = .text t :: rest → False := by
    rintro rfl
    cases h (.text t) rfl
  rw [pushText.eq_2 _ _ hnot, if_neg hs]

theorem merged_pushText (h : Merged xs) : Merged (pushText s xs) := by
  fun_cases pushText s xs with
  | case1 t rest =>
    obtain ⟨ht, hhead, hrest⟩ := Merged.cons_iff.mp h
    refine Merged.cons_iff.mpr ⟨fun he => ht ?_, hhead, hrest⟩
    rw [(String.append_eq_empty_iff.mp (Element.text.inj he)).2]
  | case2 _ hnot hs => exact h
  | case3 _ hnot hs =>
    refine Merged.cons_iff.mpr ⟨fun he => hs (Element.text.inj he), fun x hx => .inr ?_, h⟩
    cases xs with
    | nil => cases hx
    | cons y rest =>
      obtain rfl := Option.some.inj hx
      exact not_isText_of_ne fun t ht => hnot t rest (by rw [ht])

theorem merged_merge (xs : List Element) : Merged (merge xs) := by
  fun_induction merge xs with
  | case1 => exact .nil
  | case2 s rest ih => exact merged_pushText ih
  | case3 x rest hnot ih => exact .cons_other (not_isText_of_ne hnot) ih

theorem Merged.merge_eq (h : Merged xs) : merge xs = xs := by
  induction xs with
  | nil => rfl
  | cons x rest ih =>
    obtain ⟨hx, hhead, hrest⟩ := Merged.cons_iff.mp h
    cases htext : x.isText with
    | false => rw [merge_cons htext, ih hrest]
    | true =>
      obtain ⟨s, rfl⟩ := eq_text_of_isText htext
      rw [merge, ih hrest, pushText_of_apart fun hs => hx (hs ▸ rfl)]
      exact fun y hy => (hhead y hy).resolve_left (by simp [Element.isText])

end

def Element.Compact (x : Element) : Prop :=
  ∀ s ∈ x.children ++ x.held, Merged s

theorem compact_of_children {x : Element} (hchildren : ∀ s ∈ x.children, Merged s)
    (hheld : x.held = []) : x.Compact := by
  rw [Element.Compact, hheld, List.append_nil]
  exact hchildren

structure Canonical (xs : List Element) : Prop where
  merged : Merged xs
  inside : Everywhere Element.Compact xs

end Manuscript
