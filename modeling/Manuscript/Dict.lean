namespace Manuscript

structure Dict (α : Type) where
  entries : List (String × α)
  deriving DecidableEq, Repr

namespace Dict

variable {α : Type}

def insertEntry (name : String) (value : α) : List (String × α) → List (String × α)
  | [] => [(name, value)]
  | (n, v) :: rest =>
      if name < n then (name, value) :: (n, v) :: rest
      else if name = n then (name, value) :: rest
      else (n, v) :: insertEntry name value rest

def findEntry (name : String) : List (String × α) → Option α
  | [] => none
  | (n, v) :: rest => if n = name then some v else findEntry name rest

def empty : Dict α := ⟨[]⟩

instance : EmptyCollection (Dict α) := ⟨empty⟩

def isEmpty (d : Dict α) : Bool := d.entries.isEmpty

def size (d : Dict α) : Nat := d.entries.length

def find? (d : Dict α) (name : String) : Option α := findEntry name d.entries

def contains (d : Dict α) (name : String) : Bool := (d.find? name).isSome

def insert (d : Dict α) (name : String) (value : α) : Dict α :=
  ⟨insertEntry name value d.entries⟩

def erase (d : Dict α) (name : String) : Dict α :=
  ⟨d.entries.filter (·.1 ≠ name)⟩

def union (d other : Dict α) : Dict α :=
  other.entries.foldr (fun entry acc => acc.insert entry.1 entry.2) d

def ofList (entries : List (String × α)) : Dict α :=
  entries.foldl (fun acc entry => acc.insert entry.1 entry.2) ∅

def map {β : Type} (f : α → β) (d : Dict α) : Dict β :=
  ⟨d.entries.map fun entry => (entry.1, f entry.2)⟩

def Ordered (d : Dict α) : Prop := (d.entries.map (·.1)).Pairwise (· < ·)

theorem findEntry_insertEntry (name key : String) (value : α) (entries : List (String × α)) :
    findEntry key (insertEntry name value entries) =
      if name = key then some value else findEntry key entries := by
  induction entries with
  | nil => simp [insertEntry, findEntry]
  | cons entry rest ih =>
    obtain ⟨n, v⟩ := entry
    simp only [insertEntry]
    split
    · simp [findEntry]
    · split
      · next h => subst h; by_cases hk : name = key <;> simp [findEntry, hk]
      · next h =>
        simp only [findEntry, ih]
        by_cases hk : n = key
        · subst hk; simp [h]
        · simp [hk]

@[simp] theorem find?_empty (name : String) : (∅ : Dict α).find? name = none := rfl

theorem find?_insert (d : Dict α) (name key : String) (value : α) :
    (d.insert name value).find? key = if name = key then some value else d.find? key :=
  findEntry_insertEntry ..

@[simp] theorem find?_insert_self (d : Dict α) (name : String) (value : α) :
    (d.insert name value).find? name = some value := by
  simp [find?_insert]

theorem findEntry_filter_ne (name key : String) (entries : List (String × α)) :
    findEntry key (entries.filter (·.1 ≠ name)) =
      if name = key then none else findEntry key entries := by
  induction entries with
  | nil => simp [findEntry]
  | cons entry rest ih =>
    obtain ⟨n, v⟩ := entry
    by_cases hn : n = name
    · subst hn
      simp only [findEntry, ne_eq, not_true_eq_false, decide_false, Bool.false_eq_true,
        not_false_eq_true, List.filter_cons_of_neg, ih]
      split <;> rfl
    · by_cases hk : n = key
      · subst hk; simp [findEntry, hn, Ne.symm hn]
      · simp_all [findEntry]

theorem find?_erase (d : Dict α) (name key : String) :
    (d.erase name).find? key = if name = key then none else d.find? key :=
  findEntry_filter_ne ..

theorem find?_union (d other : Dict α) (name : String) :
    (d.union other).find? name = (other.find? name).or (d.find? name) := by
  obtain ⟨entries⟩ := other
  simp only [union]
  induction entries with
  | nil => rfl
  | cons entry rest ih =>
    obtain ⟨n, v⟩ := entry
    rw [List.foldr_cons, find?_insert, ih]
    by_cases h : n = name <;> simp [find?, findEntry, h]

theorem mem_keys_insertEntry {key name : String} {value : α} {entries : List (String × α)}
    (h : key ∈ (insertEntry name value entries).map (·.1)) :
    key = name ∨ key ∈ entries.map (·.1) := by
  induction entries with
  | nil => simpa [insertEntry] using h
  | cons entry rest ih =>
    obtain ⟨n, v⟩ := entry
    simp only [insertEntry] at h
    split at h
    · simpa using h
    · split at h
      · next hn => subst hn; simp at h ⊢; grind
      · simp only [List.map_cons, List.mem_cons] at h ⊢
        rcases h with h | h
        · exact .inr (.inl h)
        · exact (ih h).imp_right .inr

@[simp] theorem ordered_empty : (∅ : Dict α).Ordered := List.Pairwise.nil

theorem lt_of_not_lt {a b : String} (h : ¬ a < b) (hne : a ≠ b) : b < a :=
  Decidable.byContradiction fun h' => hne (String.le_antisymm (String.not_lt.mp h') (String.not_lt.mp h))

theorem Ordered.insert {d : Dict α} (h : d.Ordered) (name : String) (value : α) :
    (d.insert name value).Ordered := by
  obtain ⟨entries⟩ := d
  simp only [Ordered, Dict.insert] at *
  induction entries with
  | nil => simp [insertEntry]
  | cons entry rest ih =>
    obtain ⟨n, v⟩ := entry
    rw [List.map_cons, List.pairwise_cons] at h
    simp only [insertEntry]
    split
    · next hlt =>
      simp only [List.map_cons, List.pairwise_cons, List.mem_cons]
      refine ⟨?_, h⟩
      rintro k (rfl | hk)
      · exact hlt
      · exact String.lt_trans hlt (h.1 k hk)
    · split
      · next hn => subst hn; exact List.pairwise_cons.mpr h
      · next hlt hn =>
        refine List.pairwise_cons.mpr ⟨fun k hk => ?_, ih h.2⟩
        rcases mem_keys_insertEntry hk with rfl | hk
        · exact lt_of_not_lt hlt hn
        · exact h.1 k hk

theorem ordered_ofList (entries : List (String × α)) : (ofList entries).Ordered := by
  suffices h : ∀ d : Dict α, d.Ordered →
      (entries.foldl (fun acc entry => acc.insert entry.1 entry.2) d).Ordered from h ∅ ordered_empty
  induction entries with
  | nil => exact fun _ h => h
  | cons entry rest ih => exact fun d h => ih _ (h.insert _ _)

theorem Ordered.union {d : Dict α} (h : d.Ordered) (other : Dict α) : (d.union other).Ordered := by
  obtain ⟨entries⟩ := other
  simp only [Dict.union]
  induction entries with
  | nil => exact h
  | cons entry rest ih => exact ih.insert _ _

end Dict

end Manuscript
