import Manuscript.Element.Walk
import Manuscript.Fault
import Manuscript.Line

namespace Manuscript

/-- The elements set aside, in the order of their numbers, and the last number given. -/
structure Pending where
  last : UInt32
  entries : List (UInt32 × Element)

namespace Pending

def empty : Pending := ⟨0, []⟩

abbrev Codec := ExceptT Fault (StateM Pending)

def token (reference : UInt32) : String :=
  String.singleton reservedChar ++ toString reference.toNat ++ String.singleton reservedChar

def register (element : Element) (pending : Pending) : Pending :=
  ⟨pending.last + 1, pending.entries ++ [(pending.last + 1, element)]⟩

def writeLine : Line → StateM Pending String
  | [] => return ""
  | .text s :: rest => return s ++ (← writeLine rest)
  | element :: rest => do
      modify (register element)
      let reference := (← get).last
      return token reference ++ (← writeLine rest)

def serialize (lines : List Line) : StateM Pending String := do
  return "\n".intercalate (← lines.mapM writeLine)

mutual

def parsePayload (parse : String → Except Fault (List Element)) : Element → Except Fault Element
  | .quoted style attributes content => do
      return .quoted style attributes (merge (← parseFragments parse content))
  | .quotation mark content => do
      return .quotation mark (merge (← parseFragments parse content))
  | element => return element

def parseFragments (parse : String → Except Fault (List Element)) :
    List Element → Except Fault (List Element)
  | [] => return []
  | .text s :: rest => do return (← parse s) ++ (← parseFragments parse rest)
  | element :: rest => do
      return (← parsePayload parse element) :: (← parseFragments parse rest)

end

def parseEntries (parse : String → Except Fault (List Element)) :
    List (UInt32 × Element) → Except Fault Unit × List (UInt32 × Element)
  | [] => (.ok (), [])
  | (reference, element) :: rest =>
      match parsePayload parse element with
      | .ok parsed =>
          let (outcome, others) := parseEntries parse rest
          (outcome, (reference, parsed) :: others)
      | .error fault => (.error fault, (reference, .blankLine) :: rest)

def parsePayloads (parse : String → Except Fault (List Element)) : Codec Unit :=
  ExceptT.mk fun pending =>
    let (outcome, entries) := parseEntries parse pending.entries
    (outcome, { pending with entries })

def takeOut (reference : UInt32) : Codec Element := ExceptT.mk fun pending =>
  match pending.entries.lookup reference with
  | some element =>
      (.ok element, { pending with entries := pending.entries.filter (·.1 ≠ reference) })
  | none => (.error (.of (.unknownPlaceholder reference)), pending)

def restoring? : Element → Option (Codec Element)
  | .placeholder reference => some (takeOut reference)
  | _ => none

def restore (elements : List Element) : Codec (List Element) :=
  walkM restoring? id elements

def finish (pending : Pending) : Except Fault Unit :=
  if pending.entries.isEmpty then .ok ()
  else .error (.of (.placeholdersLeft (pending.entries.map (·.1))))

end Pending

end Manuscript
