import Manuscript.Proofs.Reserved.Tidy
import Manuscript.Substitution.Reserved

namespace Manuscript

namespace Element

def Unreserved : Element → Prop
  | .text s => Clean s
  | .declaration _ value => value.Strings Clean
  | .continued _ element => element.Unreserved
  | _ => True

def CleanRead : Element → Prop
  | .text s => Clean s
  | .declaration _ (.string s) => Clean s
  | _ => True

def CleanUnread : Element → Prop
  | .declaration _ (.string _) => True
  | .declaration _ value => value.Strings Clean
  | .continued _ element => element.Unreserved
  | _ => True

theorem unreserved_iff (x : Element) : x.Unreserved ↔ x.CleanRead ∧ x.CleanUnread := by
  cases x
  case declaration name value => cases value <;> simp [Unreserved, CleanRead, CleanUnread, Value.Strings]
  all_goals simp [Unreserved, CleanRead, CleanUnread]

end Element

namespace Reserved

theorem isIn_eq_false_iff {s : String} : isIn s = false ↔ Clean s := by
  simp [isIn, Clean]

theorem offending?_eq_none_iff (x : Element) : offending? x = none ↔ x.CleanRead := by
  have string (s : String) : (if isIn s then some s else none) = none ↔ Clean s := by
    rw [← isIn_eq_false_iff]
    cases isIn s <;> simp
  cases x
  case text s => exact string s
  case declaration name value =>
    cases value
    case string s => exact string s
    all_goals exact iff_of_true rfl trivial
  all_goals exact iff_of_true rfl trivial

theorem of_offending?_eq_some {x : Element} {s : String} (h : offending? x = some s) :
    ¬ Clean s ∧ (x = .text s ∨ ∃ name, x = .declaration name (.string s)) := by
  have string {t : String} (ht : (if isIn t then some t else none) = some s) : t = s ∧ ¬ Clean s := by
    rw [← isIn_eq_false_iff]
    cases hin : isIn t <;> simp_all
  cases x
  case text t =>
    obtain ⟨rfl, hs⟩ := string h
    exact ⟨hs, .inl rfl⟩
  case declaration name value =>
    cases value
    case string t =>
      obtain ⟨rfl, hs⟩ := string h
      exact ⟨hs, .inr ⟨name, rfl⟩⟩
    all_goals cases h
  all_goals cases h

def refuse (s : String) : Except Fault Element :=
  throw (.of (.reserved s))

theorem check_eq (elements : List Element) :
    check elements = (fun outcomes => ((rebuild offending? id elements).run outcomes).1) <$>
      (gather offending? elements).mapM refuse :=
  walkM_eq_replay offending? id refuse elements

theorem check_of_gather_eq_nil {elements : List Element} (h : gather offending? elements = []) :
    check elements = .ok elements := by
  have hbuilt := rebuild_map offending? id (fun _ => .blankLine) elements
  rw [substituted_of_gather_eq_nil _ h, h] at hbuilt
  rw [check_eq, h]
  exact congrArg Except.ok hbuilt

theorem check_of_gather_eq_cons {elements : List Element} {s : String} {rest : List String}
    (h : gather offending? elements = s :: rest) : check elements = .error (.of (.reserved s)) := by
  rw [check_eq, h, List.mapM_cons]
  rfl

theorem check_eq_ok_iff {elements checked : List Element} :
    check elements = .ok checked ↔ checked = elements ∧ gather offending? elements = [] := by
  cases hgather : gather offending? elements with
  | nil =>
    rw [check_of_gather_eq_nil hgather, Except.ok.injEq, eq_comm]
    exact (and_iff_left rfl).symm
  | cons s rest =>
    rw [check_of_gather_eq_cons hgather]
    exact iff_of_false nofun fun h => nomatch h.2

theorem eq_of_check {elements checked : List Element} (h : check elements = .ok checked) :
    checked = elements :=
  (check_eq_ok_iff.mp h).1

theorem gather_offending?_eq_nil_iff {elements : List Element} :
    gather offending? elements = [] ↔ ∀ x, Visited x elements → x.CleanRead := by
  rw [gather_eq_nil_iff]
  exact forall₂_congr fun x _ => offending?_eq_none_iff x

theorem everywhere_unreserved_iff {elements : List Element} :
    Everywhere Element.Unreserved elements ↔ gather offending? elements = [] ∧
      ∀ x, Visited x elements → x.CleanUnread ∧ ∀ s ∈ x.held, Everywhere Element.Unreserved s := by
  rw [everywhere_iff_visited, gather_offending?_eq_nil_iff, ← forall₂_and]
  refine forall₂_congr fun x _ => ?_
  rw [Element.unreserved_iff, and_assoc]

/-- What the check accepts is unchanged and without the reserved character wherever it looks. It is without
the character altogether just if there is none where the check does not look. -/
theorem check_ok_iff_cleanRead (elements : List Element) :
    (∀ checked, check elements = .ok checked ↔
      checked = elements ∧ ∀ x, Visited x elements → x.CleanRead) ∧
    (Everywhere Element.Unreserved elements ↔ check elements = .ok elements ∧
      ∀ x, Visited x elements → x.CleanUnread ∧ ∀ s ∈ x.held, Everywhere Element.Unreserved s) ∧
    ∀ fault, check elements = .error fault →
      ∃ s x, fault = .of (.reserved s) ∧ ¬ Clean s ∧ Visited x elements ∧
        (x = .text s ∨ ∃ name, x = .declaration name (.string s)) := by
  refine ⟨fun checked => ?_, ?_, fun fault hfault => ?_⟩
  · rw [check_eq_ok_iff, gather_offending?_eq_nil_iff]
  · rw [everywhere_unreserved_iff, check_eq_ok_iff, and_iff_right rfl]
  · cases hgather : gather offending? elements with
    | nil =>
      rw [check_of_gather_eq_nil hgather] at hfault
      cases hfault
    | cons s rest =>
      rw [check_of_gather_eq_cons hgather] at hfault
      obtain ⟨x, hvisited, hx⟩ := visited_of_mem_gather offending? (hgather ▸ List.mem_cons_self)
      obtain ⟨hs, hform⟩ := of_offending?_eq_some hx
      exact ⟨s, x, (Except.error.inj hfault).symm, hs, hvisited, hform⟩

def outOfReach : List Element :=
  [.continued 0 (.declaration "a" (.string "\uFFFD")), .declaration "b" (.roles ["\uFFFD"]),
   .paragraph ⟨[("c", .elements [.text "\uFFFD"])]⟩ []]

theorem check_outOfReach :
    check outOfReach = .ok outOfReach ∧ ∀ x ∈ outOfReach, ¬ x.Throughout Element.Unreserved := by
  refine ⟨check_of_gather_eq_nil ?_, fun x hx h => ?_⟩
  · simp [outOfReach, gather_eq, Element.gather, offending?, Element.children]
  · have hmarked : ¬ Clean "\uFFFD" := by decide
    simp only [outOfReach, List.mem_cons, List.not_mem_nil, or_false] at hx
    rcases hx with rfl | rfl | rfl
    · exact hmarked h.1
    · exact hmarked (h.1 _ List.mem_cons_self)
    · exact hmarked (throughout_text.mp (everywhere_singleton.mp (h.2.2 _ List.mem_cons_self)))

end Reserved

end Manuscript
