import Manuscript.Proofs.Reserved.Check

namespace Manuscript

namespace Text

variable {c : Char} {cs : List Char} {start o : Nat}

theorem byteCount_toList (s : String) : byteCount s.toList = s.utf8ByteSize := by
  rw [← utf8ByteSize_ofList, String.ofList_toList]

theorem mem_offsetsOf_iff : o ∈ offsetsOf c start cs ↔
    ∃ before after, cs = before ++ c :: after ∧ o = start + byteCount before := by
  induction cs generalizing start with
  | nil => simp [offsetsOf]
  | cons d cs ih =>
    have hmem : o ∈ offsetsOf c start (d :: cs) ↔
        (d = c ∧ o = start) ∨ o ∈ offsetsOf c (start + d.utf8Size) cs := by
      rw [offsetsOf]
      by_cases h : d = c <;> simp [h]
    rw [hmem, ih]
    constructor
    · rintro (⟨rfl, rfl⟩ | ⟨before, after, rfl, rfl⟩)
      · exact ⟨[], cs, rfl, rfl⟩
      · exact ⟨d :: before, after, rfl, Nat.add_assoc ..⟩
    · rintro ⟨before, after, hcs, rfl⟩
      cases before with
      | nil => exact .inl ⟨(List.cons.inj hcs).1, rfl⟩
      | cons b before =>
        obtain ⟨rfl, rfl⟩ := List.cons.inj hcs
        exact .inr ⟨before, after, rfl, (Nat.add_assoc ..).symm⟩

theorem le_of_mem_offsetsOf (h : o ∈ offsetsOf c start cs) : start ≤ o := by
  obtain ⟨before, after, -, rfl⟩ := mem_offsetsOf_iff.mp h
  exact Nat.le_add_right start _

theorem pairwise_offsetsOf (c : Char) (start : Nat) (cs : List Char) :
    (offsetsOf c start cs).Pairwise (· < ·) := by
  induction cs generalizing start with
  | nil => exact .nil
  | cons d cs ih =>
    rw [offsetsOf]
    split
    · refine List.pairwise_cons.mpr ⟨fun o ho => ?_, ih _⟩
      have hle := le_of_mem_offsetsOf ho
      have hpos := d.utf8Size_pos
      omega
    · exact ih _

theorem mem_offsetsOf_toList_iff {s : String} : o ∈ offsetsOf c 0 s.toList ↔
    ∃ before after, s = before ++ String.singleton c ++ after ∧ o = before.utf8ByteSize := by
  rw [mem_offsetsOf_iff]
  constructor
  · rintro ⟨before, after, hs, rfl⟩
    refine ⟨.ofList before, .ofList after, ?_, ?_⟩
    · rw [← String.toList_inj, hs]
      simp
    · rw [utf8ByteSize_ofList, Nat.zero_add]
  · rintro ⟨before, after, rfl, rfl⟩
    refine ⟨before.toList, after.toList, by simp, ?_⟩
    rw [byteCount_toList, Nat.zero_add]

example : offsetsOf reservedChar 0 "a \uFFFD1\uFFFD b".toList = [2, 6] := by decide

end Text

section

variable {ε : Type} {event? : Element → Option ε}

theorem gather_filter (hleaf : ∀ x event, event? x = some event → x.children = []) (p : ε → Bool)
    (elements : List Element) :
    gather (fun x => (event? x).filter p) elements = (gather event? elements).filter p := by
  induction elements using sequence_induction with
  | step elements ih =>
    rw [gather_eq, gather_eq, List.filter_flatMap]
    refine List.flatMap_congr fun x hx => ?_
    rw [Element.gather, Element.gather]
    cases hevent : event? x with
    | none =>
      rw [Option.filter_none, List.filter_flatMap]
      exact List.flatMap_congr (ih x hx)
    | some event =>
      rw [hleaf x event hevent, Option.filter_some]
      cases hp : p event <;> simp [hp]

end

namespace Reserved

def inspected? : Element → Option String
  | .text s => some s
  | .declaration _ (.string s) => some s
  | _ => none

theorem inspected?_eq_some_iff {x : Element} {s : String} :
    inspected? x = some s ↔ x = .text s ∨ ∃ name, x = .declaration name (.string s) := by
  cases x
  case text t => simp [inspected?]
  case declaration name value => cases value <;> simp [inspected?]
  all_goals simp [inspected?]

theorem children_of_inspected? (x : Element) (s : String) (h : inspected? x = some s) :
    x.children = [] := by
  obtain rfl | ⟨name, rfl⟩ := inspected?_eq_some_iff.mp h <;> rfl

theorem offending?_eq (x : Element) : offending? x = (inspected? x).filter isIn := by
  cases x
  case declaration name value => cases value <;> rfl
  all_goals rfl

theorem gather_offending? (elements : List Element) :
    gather offending? elements = (gather inspected? elements).filter isIn := by
  rw [← gather_filter children_of_inspected?, funext offending?_eq]

theorem not_isIn_iff {s : String} : ¬ isIn s = true ↔ Clean s := by
  rw [Bool.not_eq_true, isIn_eq_false_iff]

structure Pinpoints (fault : Fault) (s : String) : Prop where
  increasing : (fault.labels.map Label.offset).Pairwise (· < ·)
  occurrences : ∀ o, o ∈ fault.labels.map Label.offset ↔
    ∃ before after, s = before ++ "\uFFFD" ++ after ∧ o = before.utf8ByteSize
  lengths : ∀ label ∈ fault.labels, label.length = 3
  texts : fault.labels.map Label.text =
    fault.message :: List.replicate (s.toList.count reservedChar - 1) "also reserved"

theorem labels_reserved {s : String} {first : Nat} {rest : List Nat}
    (h : Text.offsetsOf reservedChar 0 s.toList = first :: rest) :
    (Cause.reserved s).labels =
      ⟨first, 3, (Cause.reserved s).message⟩ :: rest.map fun o => ⟨o, 3, "also reserved"⟩ := by
  rw [Cause.labels, h]

theorem pinpoints_reserved {s : String} (hs : ¬ Clean s) : Pinpoints (.of (.reserved s)) s := by
  have hcount := Text.length_offsetsOf reservedChar 0 s.toList
  cases hoffsets : Text.offsetsOf reservedChar 0 s.toList with
  | nil =>
    rw [hoffsets] at hcount
    exact absurd (List.count_eq_zero.mp hcount.symm) hs
  | cons first rest =>
    have hlabels : (Fault.of (.reserved s)).labels = _ := labels_reserved hoffsets
    have hplaces : (Fault.of (.reserved s)).labels.map Label.offset =
        Text.offsetsOf reservedChar 0 s.toList := by
      rw [hlabels, hoffsets, List.map_cons, List.map_map]
      exact congrArg (first :: ·) (List.map_id rest)
    refine ⟨?_, fun o => ?_, ?_, ?_⟩
    · rw [hplaces]
      exact Text.pairwise_offsetsOf reservedChar 0 s.toList
    · rw [hplaces]
      exact Text.mem_offsetsOf_toList_iff
    · rw [hlabels]
      simp
    · rw [hlabels, ← hcount, hoffsets, List.map_cons, List.map_map]
      exact congrArg (_ :: ·) List.map_const'

/-- Wherever a visited element has the reserved character, the check fails at the first text that has it, and
points to each of the occurrences in that text. -/
theorem check_pinpoints_first {elements : List Element} {x : Element} {t : String}
    (hvisited : Visited x elements) (hx : x = .text t ∨ ∃ name, x = .declaration name (.string t))
    (ht : ¬ Clean t) :
    ∃ before s after fault, gather inspected? elements = before ++ s :: after ∧
      (∀ u ∈ before, Clean u) ∧ ¬ Clean s ∧ t ∈ s :: after ∧
      check elements = .error fault ∧ Pinpoints fault s := by
  have hmem : t ∈ gather inspected? elements :=
    mem_gather_of_visited inspected? children_of_inspected? hvisited (inspected?_eq_some_iff.mpr hx)
  cases hgather : gather offending? elements with
  | nil =>
    rw [gather_offending?, List.filter_eq_nil_iff] at hgather
    exact absurd (not_isIn_iff.mp (hgather t hmem)) ht
  | cons s rest =>
    have hcheck := check_of_gather_eq_cons hgather
    rw [gather_offending?, List.filter_eq_cons_iff] at hgather
    obtain ⟨before, after, hsplit, hbefore, hin, -⟩ := hgather
    have hclean : ∀ u ∈ before, Clean u := fun u hu => not_isIn_iff.mp (hbefore u hu)
    have hs : ¬ Clean s := fun hs => not_isIn_iff.mpr hs hin
    have htail : t ∈ s :: after := by
      rw [hsplit, List.mem_append] at hmem
      exact hmem.resolve_left fun hu => ht (hclean t hu)
    exact ⟨before, s, after, _, hsplit, hclean, hs, htail, hcheck, pinpoints_reserved hs⟩

def marked : List Element :=
  [.paragraph ⟨[]⟩ [[.text "é"], [.text "é\uFFFD\uFFFD😀\uFFFD"]]]

theorem check_marked :
    ∃ before s after fault, gather inspected? marked = before ++ s :: after ∧
      (∀ u ∈ before, Clean u) ∧ ¬ Clean s ∧ "é\uFFFD\uFFFD😀\uFFFD" ∈ s :: after ∧
      check marked = .error fault ∧ Pinpoints fault s := by
  refine check_pinpoints_first (x := .text "é\uFFFD\uFFFD😀\uFFFD") ?_ (.inl rfl) (by decide)
  exact .inside List.mem_cons_self (.tail _ (.head _)) (.here List.mem_cons_self)

end Reserved

end Manuscript
