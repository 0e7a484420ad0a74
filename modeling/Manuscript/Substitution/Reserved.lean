import Manuscript.Element.Walk
import Manuscript.Fault

namespace Manuscript.Reserved

def isIn (s : String) : Bool :=
  s.toList.contains reservedChar

def offending? : Element → Option String
  | .text s => if isIn s then some s else none
  | .declaration _ (.string s) => if isIn s then some s else none
  | _ => none

def check (elements : List Element) : Except Fault (List Element) :=
  walkM (fun element => (offending? element).map fun s => throw (.of (.reserved s))) id elements

def checkValue (name : String) (value : Value) : Except Fault Unit :=
  match value with
  | .string s =>
      if isIn s then .error ((Fault.of (.reserved s)).within (.inAttribute name)) else .ok ()
  | _ => .ok ()

def checkAll (attributes : Attributes) : Except Fault Unit :=
  attributes.entries.forM fun (name, value) => checkValue name value

end Manuscript.Reserved
