import TinyScript.CommandLine

/-
  The program that answers the command line.
-/

open TinyScript in
/-- Reads the file that a request names, if it can be read. -/
def readRequested : CommandLine.Request → IO (Option String)
  | .run _ true contents => try return some (← IO.FS.readFile contents) catch _ => return none
  | _ => return none

open TinyScript in
/-- Answers the command line. -/
def main (args : List String) : IO UInt32 := do
  let request := CommandLine.request args
  let file ← readRequested request
  let response := CommandLine.respond (fun _ => file) request
  (← IO.getStdout).putStr response.output
  (← IO.getStderr).putStr response.errors
  return UInt32.ofNat response.status
