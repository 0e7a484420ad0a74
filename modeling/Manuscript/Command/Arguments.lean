import Manuscript.Text.Field

namespace Manuscript.Command

structure Source where
  file : String
  configuration : Option String
  overrides : List (String × String)
  deriving DecidableEq, Repr

inductive Request where
  | version
  | help
  | substitute (source : Source)
  | trace (source : Source)
  | inline (text rule : String)
  | select (kind directive : String)
  deriving DecidableEq, Repr

def assignment? (raw : String) : Except String (String × String) :=
  let cs := raw.toList
  let name := Text.trim (String.ofList (cs.takeWhile (· ≠ '=')))
  let value := String.ofList ((cs.dropWhile (· ≠ '=')).drop 1)
  if name = "" then .error ("missing attribute name in '" ++ raw ++ "'") else .ok (name, value)

def isPath (value : String) : Bool := value ≠ ""

def isAssignment (raw : String) : Bool := (assignment? raw).toBool

def isAny (_ : String) : Bool := true

structure Switch where
  short : Char
  long : String
  repeatable : Bool
  accepts : String → Bool

def configSwitch : Switch := ⟨'c', "config", false, isPath⟩

def attributeSwitch : Switch := ⟨'a', "attribute", true, isAssignment⟩

def ruleSwitch : Switch := ⟨'r', "rule", false, isAny⟩

def subsSwitch : Switch := ⟨'s', "subs", false, isAny⟩

structure Shape where
  accepts : String → Bool
  switches : List Switch

structure Parsed where
  positional : Option String
  options : List (String × String)
  verbose : Bool
  deriving DecidableEq, Repr

inductive Refusal where
  | usage
  | help
  deriving DecidableEq, Repr

namespace Parsed

def empty : Parsed := ⟨none, [], false⟩

def valuesOf (parsed : Parsed) (switch : Switch) : List String :=
  (parsed.options.filter (·.1 = switch.long)).map (·.2)

def setVerbose (parsed : Parsed) : Except Refusal Parsed :=
  if parsed.verbose then .error .usage else .ok { parsed with verbose := true }

def addOption (parsed : Parsed) (switch : Switch) (value : String) : Except Refusal Parsed :=
  let isRepeated := !switch.repeatable && parsed.options.any (·.1 = switch.long)
  if isRepeated || !switch.accepts value then .error .usage
  else .ok { parsed with options := parsed.options ++ [(switch.long, value)] }

def addPositional (shape : Shape) (parsed : Parsed) (value : String) : Except Refusal Parsed :=
  if parsed.positional.isSome || !shape.accepts value then .error .usage
  else .ok { parsed with positional := some value }

end Parsed

def looksLikeOption (argument : String) : Bool :=
  argument.startsWith "-" && argument ≠ "-"

inductive Cluster where
  | done (parsed : Parsed)
  | needsValue (parsed : Parsed) (switch : Switch)

def cluster (switches : List Switch) (parsed : Parsed) : List Char → Except Refusal Cluster
  | [] => .ok (.done parsed)
  | c :: rest =>
      if c = 'v' then do cluster switches (← parsed.setVerbose) rest
      else if c = 'h' then .error .help
      else match switches.find? (·.short = c), rest with
        | none, _ => .error .usage
        | some switch, [] => .ok (.needsValue parsed switch)
        | some switch, d :: others => do
            let value := if d = '=' then others else d :: others
            return .done (← parsed.addOption switch (String.ofList value))

def long (switches : List Switch) (parsed : Parsed) (body : List Char) :
    Except Refusal Cluster :=
  let name := String.ofList (body.takeWhile (· ≠ '='))
  let value := (body.dropWhile (· ≠ '=')).tail?
  match value, switches.find? (·.long = name) with
  | none, some switch => .ok (.needsValue parsed switch)
  | some value, some switch => do return .done (← parsed.addOption switch (String.ofList value))
  | none, none =>
      if name = "verbose" then do return .done (← parsed.setVerbose)
      else if name = "help" then .error .help
      else .error .usage
  | some _, none => .error .usage

def parse (shape : Shape) (parsed : Parsed) : List String → Except Refusal Parsed
  | [] => .ok parsed
  | "--" :: rest => rest.foldlM (Parsed.addPositional shape) parsed
  | argument :: rest =>
      if !looksLikeOption argument then do
        parse shape (← parsed.addPositional shape argument) rest
      else do
        let outcome ←
          if argument.startsWith "--" then long shape.switches parsed (argument.toList.drop 2)
          else cluster shape.switches parsed (argument.toList.drop 1)
        match outcome, rest with
        | .done parsed, rest => parse shape parsed rest
        | .needsValue _ _, [] => .error .usage
        | .needsValue parsed switch, value :: rest =>
            if looksLikeOption value then .error .usage
            else parse shape (← parsed.addOption switch value) rest

def read (shape : Shape) (arguments : List String) : Except Refusal (String × Parsed) := do
  let parsed ← parse shape Parsed.empty arguments
  match parsed.positional with
  | some value => return (value, parsed)
  | none => throw .usage

def source (arguments : List String) : Except Refusal Source := do
  let (file, parsed) ← read ⟨isPath, [configSwitch, attributeSwitch]⟩ arguments
  let overrides := (parsed.valuesOf attributeSwitch).filterMap fun raw => (assignment? raw).toOption
  return ⟨file, (parsed.valuesOf configSwitch).head?, overrides⟩

def inlineRequest (arguments : List String) : Except Refusal Request := do
  let (text, parsed) ← read ⟨isAny, [ruleSwitch]⟩ arguments
  return .inline text ((parsed.valuesOf ruleSwitch).head?.getD "InlineMacroSubs")

def selectRequest (arguments : List String) : Except Refusal Request := do
  let (kind, parsed) ← read ⟨isAny, [subsSwitch]⟩ arguments
  return .select kind ((parsed.valuesOf subsSwitch).head?.getD "")

def subcommands : List String := ["subs", "trace", "inline", "selector", "help"]

def helpRequest (arguments : List String) : Except Refusal Request :=
  match arguments with
  | [] => .error .help
  | [name] => .error (if subcommands.contains name then .help else .usage)
  | _ => .error .usage

def subcommand (name : String) (arguments : List String) : Except Refusal Request :=
  match name with
  | "subs" => (source arguments).map .substitute
  | "trace" => (source arguments).map .trace
  | "inline" => inlineRequest arguments
  | "selector" => selectRequest arguments
  | "help" => helpRequest arguments
  | _ => .error .usage

def leading (verbose : Bool) : List Char → Except Refusal (Option Bool)
  | [] => .ok (some verbose)
  | c :: rest =>
      if c = 'v' then if verbose then .error .usage else leading true rest
      else if c = 'V' then .ok none
      else if c = 'h' then .error .help
      else .error .usage

def request (verbose : Bool) : List String → Except Refusal Request
  | [] => .error .usage
  | argument :: rest =>
      if argument = "--version" then .ok .version
      else if argument = "--help" then .ok .help
      else if argument = "--verbose" then
        if verbose then .error .usage else request true rest
      else if looksLikeOption argument then
        if argument.startsWith "--" then .error .usage
        else do
          match ← leading verbose (argument.toList.drop 1) with
          | some verbose => request verbose rest
          | none => return .version
      else subcommand argument rest

end Manuscript.Command
