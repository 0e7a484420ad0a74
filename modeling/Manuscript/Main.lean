import Manuscript.Command.Run

open Manuscript

def wanted (arguments : List String) : List String :=
  match Command.request false arguments with
  | .ok (.substitute source) | .ok (.trace source) => source.configuration.toList ++ [source.file]
  | _ => []

def readFile? (path : String) : IO (Option String) := do
  try return some (← IO.FS.readFile path) catch _ => return none

def main (arguments : List String) : IO UInt32 := do
  let files ← (wanted arguments).mapM fun path => return (path, ← readFile? path)
  let outcome := Command.run (fun path => (files.lookup path).join) arguments
  IO.print outcome.stdout
  IO.eprint outcome.stderr
  return outcome.code.toUInt32
