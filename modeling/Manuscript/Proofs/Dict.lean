import Mathlib.Data.List.Induction
import Mathlib.Data.List.Perm.Basic
import Manuscript.Dict

namespace Manuscript.Dict

variable {α : Type}

def lasting : List (String × α) → List (String × α)
  | [] => []
  | entry :: rest => if entry.1 ∈ rest.map (·.1) then lasting rest else entry :: lasting rest

def replaced : List (String × α) → List (String × α)
  | [] => []
  | entry :: rest => if entry.1 ∈ rest.map (·.1) then entry :: replaced rest else replaced rest

theorem lasting_append_replaced_perm (entries : List (String × α)) :
    (lasting entries ++ replaced entries).Perm entries := by
  induction entries with
  | nil => exact .refl _
  | cons entry rest ih =>
    rw [lasting, replaced]
    split
    · exact List.perm_middle.trans (ih.cons entry)
    · exact ih.cons entry

theorem mem_insertEntry {name : String} {value : α} {entries : List (String × α)}
    {entry : String × α} (h : entry ∈ insertEntry name value entries) :
    entry = (name, value) ∨ entry ∈ entries := by
  fun_induction insertEntry name value entries with
  | case1 => exact .inl (List.mem_singleton.mp h)
  | case2 n v rest hlt => exact List.mem_cons.mp h
  | case3 v rest hlt => exact (List.mem_cons.mp h).imp_right (List.mem_cons_of_mem _)
  | case4 n v rest hlt hne ih =>
    rcases List.mem_cons.mp h with h | h
    · exact .inr (h ▸ List.mem_cons_self)
    · exact (ih h).imp_right (List.mem_cons_of_mem _)

theorem mem_union {d other : Dict α} {entry : String × α} (h : entry ∈ (d.union other).entries) :
    entry ∈ d.entries ∨ entry ∈ other.entries := by
  obtain ⟨entries⟩ := other
  rw [union] at h
  induction entries with
  | nil => exact .inl h
  | cons first rest ih =>
    rcases mem_insertEntry h with h | h
    · exact .inr (h ▸ List.mem_cons_self)
    · exact (ih h).imp_right (List.mem_cons_of_mem _)

theorem mem_ofList {entries : List (String × α)} {entry : String × α}
    (h : entry ∈ (ofList entries).entries) : entry ∈ entries := by
  suffices hfold : ∀ d : Dict α, entry ∈
      (entries.foldl (fun acc entry => acc.insert entry.1 entry.2) d).entries →
        entry ∈ d.entries ∨ entry ∈ entries from (hfold ∅ h).resolve_left List.not_mem_nil
  clear h
  induction entries with
  | nil => exact fun d h => .inl h
  | cons first rest ih =>
    intro d h
    rcases ih _ h with h | h
    · rcases mem_insertEntry h with h | h
      · exact .inr (h ▸ List.mem_cons_self)
      · exact .inl h
    · exact .inr (List.mem_cons_of_mem _ h)

theorem mem_of_find? {d : Dict α} {name : String} {value : α} (h : d.find? name = some value) :
    (name, value) ∈ d.entries := by
  obtain ⟨entries⟩ := d
  rw [find?] at h
  fun_induction findEntry name entries with
  | case1 => cases h
  | case2 v rest =>
    obtain rfl := Option.some.inj h
    exact List.mem_cons_self
  | case3 n v rest hne ih => exact List.mem_cons_of_mem _ (ih h)

theorem mem_of_findEntry {name : String} {value : α} {entries : List (String × α)}
    (h : findEntry name entries = some value) : (name, value) ∈ entries :=
  mem_of_find? (d := ⟨entries⟩) h

theorem findEntry_ne_none {name : String} {value : α} {entries : List (String × α)}
    (h : (name, value) ∈ entries) : findEntry name entries ≠ none := by
  induction entries with
  | nil => cases h
  | cons entry rest ih =>
    rw [findEntry]
    split
    · exact Option.some_ne_none _
    · next hne =>
      rcases List.mem_cons.mp h with rfl | h
      · exact absurd rfl hne
      · exact ih h

theorem Ordered.find?_of_mem {d : Dict α} (h : d.Ordered) {name : String} {value : α}
    (hmem : (name, value) ∈ d.entries) : d.find? name = some value := by
  obtain ⟨entries⟩ := d
  induction entries with
  | nil => cases hmem
  | cons entry rest ih =>
    obtain ⟨hfirst, hrest⟩ := List.pairwise_cons.mp h
    rcases List.mem_cons.mp hmem with rfl | hmem
    · exact if_pos rfl
    · have hlt := hfirst name (List.mem_map_of_mem hmem)
      have hne : entry.1 ≠ name := fun he => String.lt_irrefl name (he ▸ hlt)
      exact (if_neg hne).trans (ih hrest hmem)

theorem Ordered.nodup {d : Dict α} (h : d.Ordered) : d.entries.Nodup := by
  rw [Ordered, List.pairwise_map] at h
  refine h.imp fun {a b} hlt he => ?_
  subst he
  exact String.lt_irrefl a.1 hlt

theorem Ordered.ext {d d' : Dict α} (h : d.Ordered) (h' : d'.Ordered)
    (hfind : ∀ name, d.find? name = d'.find? name) : d = d' := by
  have hmem (entry : String × α) : entry ∈ d.entries ↔ entry ∈ d'.entries := by
    constructor
    · exact fun he => mem_of_find? ((hfind entry.1).symm.trans (h.find?_of_mem he))
    · exact fun he => mem_of_find? ((hfind entry.1).trans (h'.find?_of_mem he))
  have hperm := (List.perm_ext_iff_of_nodup h.nodup h'.nodup).mpr hmem
  rw [Ordered, List.pairwise_map] at h h'
  have hasymm (a b : String × α) (hab : a.1 < b.1) (hba : b.1 < a.1) : a = b :=
    absurd hba (String.lt_asymm hab)
  have hentries := hperm.eq_of_pairwise (fun a b _ _ => hasymm a b) h h'
  cases d
  cases d'
  exact congrArg Dict.mk hentries

theorem find?_map {β : Type} (f : α → β) (d : Dict α) (name : String) :
    (d.map f).find? name = (d.find? name).map f := by
  obtain ⟨entries⟩ := d
  rw [map, find?, find?]
  induction entries with
  | nil => rfl
  | cons entry rest ih =>
    rw [List.map_cons, findEntry, findEntry]
    split
    · rfl
    · exact ih

theorem insertEntry_perm {name : String} {value : α} {entries : List (String × α)}
    (h : (entries.map (·.1)).Pairwise (· < ·)) :
    (insertEntry name value entries).Perm ((name, value) :: entries.filter (·.1 ≠ name)) := by
  induction entries with
  | nil => exact .refl _
  | cons entry rest ih =>
    obtain ⟨n, v⟩ := entry
    obtain ⟨hfirst, hrest⟩ := List.pairwise_cons.mp h
    have hkeep (hle : name ≤ n) : rest.filter (·.1 ≠ name) = rest := by
      refine List.filter_eq_self.mpr fun entry he => decide_eq_true fun heq => ?_
      have hlt := hfirst entry.1 (List.mem_map_of_mem he)
      rw [heq] at hlt
      exact String.not_lt.mpr hle hlt
    rw [insertEntry]
    split
    · next hlt =>
      have hne : n ≠ name := fun he => String.lt_irrefl n (he ▸ hlt)
      rw [List.filter_cons, if_pos (decide_eq_true hne), hkeep (String.not_lt.mp (String.lt_asymm hlt))]
    · split
      · next heq =>
        subst heq
        rw [List.filter_cons, if_neg (by simp), hkeep (String.le_refl _)]
      · next hne =>
        rw [List.filter_cons, if_pos (decide_eq_true (Ne.symm hne))]
        exact ((ih hrest).cons (n, v)).trans (.swap ..)

theorem lasting_append_singleton (entries : List (String × α)) (entry : String × α) :
    lasting (entries ++ [entry]) = (lasting entries).filter (·.1 ≠ entry.1) ++ [entry] := by
  induction entries with
  | nil => rfl
  | cons first rest ih =>
    rw [List.cons_append, lasting, lasting, ih, List.map_append, List.map_singleton]
    by_cases hname : first.1 = entry.1
    · by_cases hmem : first.1 ∈ rest.map (·.1) <;> simp_all
    · by_cases hmem : first.1 ∈ rest.map (·.1) <;> simp_all

theorem ofList_append_singleton (entries : List (String × α)) (entry : String × α) :
    ofList (entries ++ [entry]) = (ofList entries).insert entry.1 entry.2 := by
  rw [ofList, List.foldl_append]
  rfl

theorem ofList_perm_lasting (entries : List (String × α)) :
    (ofList entries).entries.Perm (lasting entries) := by
  induction entries using List.reverseRecOn with
  | nil => exact .refl _
  | append_singleton entries entry ih =>
    rw [ofList_append_singleton, lasting_append_singleton]
    have hinsert := @insertEntry_perm _ entry.1 entry.2 _ (ordered_ofList entries)
    have hkept := (ih.filter (·.1 ≠ entry.1)).cons entry
    exact (hinsert.trans hkept).trans (List.perm_append_singleton ..).symm

theorem ofList_append_replaced_perm (entries : List (String × α)) :
    ((ofList entries).entries ++ replaced entries).Perm entries :=
  ((ofList_perm_lasting entries).append_right _).trans (lasting_append_replaced_perm entries)

theorem lasting_of_nodup {entries : List (String × α)} (h : (entries.map (·.1)).Nodup) :
    lasting entries = entries := by
  induction entries with
  | nil => rfl
  | cons entry rest ih =>
    obtain ⟨hfirst, hrest⟩ := List.nodup_cons.mp h
    rw [lasting, if_neg hfirst, ih hrest]

theorem find?_ofList_of_mem {entries : List (String × α)} (h : (entries.map (·.1)).Nodup)
    {entry : String × α} (hmem : entry ∈ entries) : (ofList entries).find? entry.1 = some entry.2 := by
  rw [← lasting_of_nodup h] at hmem
  exact (ordered_ofList entries).find?_of_mem ((ofList_perm_lasting entries).mem_iff.mpr hmem)

theorem insertEntry_of_lt {name : String} {value : α} {entries : List (String × α)}
    (h : ∀ entry ∈ entries, entry.1 < name) :
    insertEntry name value entries = entries ++ [(name, value)] := by
  induction entries with
  | nil => rfl
  | cons entry rest ih =>
    obtain ⟨hlt, hrest⟩ := List.forall_mem_cons.mp h
    have hne : name ≠ entry.1 := fun he => String.lt_irrefl name (he ▸ hlt)
    rw [insertEntry, if_neg (String.lt_asymm hlt), if_neg hne, ih hrest, List.cons_append]

theorem Ordered.ofList_entries {d : Dict α} (h : d.Ordered) : ofList d.entries = d := by
  obtain ⟨entries⟩ := d
  induction entries using List.reverseRecOn with
  | nil => rfl
  | append_singleton entries entry ih =>
    rw [Ordered, List.map_append, List.pairwise_append] at h
    obtain ⟨hentries, -, hlast⟩ := h
    rw [ofList_append_singleton, ih hentries, Dict.insert, insertEntry_of_lt]
    exact fun e he => hlast e.1 (List.mem_map_of_mem he) entry.1 (List.mem_singleton_self _)

end Manuscript.Dict
