import NetLowering.Command

/-! # The program -/

namespace NetLowering.Command

def readText (path : String) : IO (Except Document.FileFault String) := do
  try
    return .ok (← IO.FS.readFile path)
  catch
    | .inappropriateType .. => return .error .isDirectory
    | _ => return .error .missing

/-- Reads the file of a model and lowers it. -/
def lowerFile (path : String) (strictPadding : Bool) : IO UInt32 := do
  let text ← readText path
  match Document.load (fun _ => text) path with
  | .error e =>
      IO.eprintln e.message
      return 1
  | .ok m =>
      let (log, outcome) := lowerReport strictPadding m
      IO.eprint log
      match outcome with
      | .error e =>
          IO.eprintln e.message
          return 1
      | .ok report =>
          IO.print report
          return 0

end NetLowering.Command

open NetLowering in
def main (args : List String) : IO UInt32 :=
  match Command.parse args with
  | .error message => do
      IO.eprintln message
      return 2
  | .ok .listOperations => do
      IO.print Command.operations
      return 0
  | .ok (.lower path strictPadding) => Command.lowerFile path strictPadding
