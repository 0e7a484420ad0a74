import Manuscript.Count
import Manuscript.Element.Walk
import Manuscript.Fault
import Manuscript.Line
import Manuscript.Store

namespace Manuscript

structure Resolution where
  store : Store
  warnings : List Warning

abbrev Resolve := ExceptT Fault (StateM Resolution)

inductive Event where
  | declare (name : String) (value : Value)
  | reset (name : String)
  | reference (name : String)
  | count (use : CounterUse)

namespace Event

def ofElement? : Element → Option Event
  | .declaration name value => some (declare name value)
  | .reset name => some (reset name)
  | .attributeReference name => some (reference name)
  | .counter use => some (count use)
  | _ => none

def modifyStore (f : Store → Store) : Resolve Unit :=
  modify fun r => { r with store := f r.store }

def refer (name : String) : Resolve Element := do
  match (← get).store.text? name with
  | some s => return .text s
  | none =>
      modify fun r => { r with warnings := r.warnings ++ [.missingAttribute name] }
      return .text (literalReference name)

def nextValue (store : Store) (use : CounterUse) : Except Fault Count :=
  match use.pinned with
  | some value => .ok value
  | none =>
      let current := store.count use.name
      match current.next? with
      | some value => .ok value
      | none => .error (.of (.counterStuck use.name current))

def advance (use : CounterUse) : Resolve Element := do
  let value ← ExceptT.mk (return nextValue (← get).store use)
  match value.shown? with
  | none => throw (.of (.counterStuck use.name value))
  | some shown =>
      modifyStore (·.setCount use.name value)
      return .text (if use.hidden then "" else shown)

def run : Event → Resolve Element
  | declare name value => do
      modifyStore (·.set name value)
      return .declaration name value
  | reset name => do
      modifyStore (·.reset name)
      return .reset name
  | reference name => refer name
  | count use => advance use

end Event

def resolving? (element : Element) : Option (Resolve Element) :=
  (Event.ofElement? element).map Event.run

def resolve (elements : List Element) : Resolve (List Element) :=
  walkM resolving? merge elements

def resolveElement (element : Element) : Resolve Element :=
  match resolving? element with
  | some action => action
  | none => element.mapChildrenM resolve

end Manuscript
