import Manuscript.Element.Plain

namespace Manuscript

structure Store where
  live : Attributes
  overrides : Attributes
  counters : Dict Count

namespace Store

def ofOverrides (overrides : Dict String) : Store :=
  ⟨∅, overrides.map .string, ∅⟩

def addAll (store : Store) (attributes : Attributes) : Store :=
  { store with live := store.live.union attributes }

def find? (store : Store) (name : String) : Option Value :=
  (store.overrides.find? name).or (store.live.find? name)

def text? (store : Store) (name : String) : Option String :=
  Value.text? (store.find? name)

def textD (store : Store) (name default : String) : String :=
  match store.find? name with
  | none => default
  | some value => value.asText

def set (store : Store) (name : String) (value : Value) : Store :=
  { store with live := store.live.insert name value }

def reset (store : Store) (name : String) : Store :=
  store.set name .nil

def count (store : Store) (name : String) : Count :=
  (store.counters.find? name).getD (.number 0)

def setCount (store : Store) (name : String) (value : Count) : Store :=
  { store with counters := store.counters.insert name value }

def snapshot (store : Store) : Attributes :=
  store.live.union store.overrides

theorem find?_snapshot (store : Store) (name : String) :
    store.snapshot.find? name = store.find? name :=
  Dict.find?_union ..

theorem count_setCount (store : Store) (name key : String) (value : Count) :
    (store.setCount name value).count key = if name = key then value else store.count key := by
  simp only [count, setCount, Dict.find?_insert]
  split <;> simp

end Store

end Manuscript
