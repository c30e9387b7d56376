import NetLowering.Document.Read
import NetLowering.Plan.Run

/-! # The command line

The command lowers the model of one file and reports what its nodes became, or lists the operations
that can be lowered. `Command.parse` reads its arguments and `Command.lowerReport` does its work on
a model.
-/

namespace NetLowering

/-- What the command is asked to do. -/
inductive Command where
  | listOperations
  | lower (path : String) (strictPadding : Bool)
deriving DecidableEq

namespace Command

structure Flags where
  strictPadding : Bool := false
  listOperations : Bool := false

/-- Reads a truth value. -/
def truth? : String → Option Bool
  | "1" | "t" | "T" | "true" | "TRUE" | "True" => some true
  | "0" | "f" | "F" | "false" | "FALSE" | "False" => some false
  | _ => none

/-- Sets a flag; without a value it is set to true. -/
def Flags.set (f : Flags) (name : String) (value : Option String) : Except String Flags := do
  let given ← match value with
    | none => .ok true
    | some text =>
        match truth? text with
        | some b => .ok b
        | none => .error s!"invalid boolean value {Text.quote text} for -{name}: parse error"
  match name with
  | "strict-padding" => .ok { f with strictPadding := given }
  | "list-ops" => .ok { f with listOperations := given }
  | _ => .error s!"flag provided but not defined: -{name}"

/-- The name of a flag and its value, after its dashes. -/
def splitFlag (cs : List Char) : String × Option String :=
  let name := cs.takeWhile (· ≠ '=')
  match cs.dropWhile (· ≠ '=') with
  | [] => (String.ofList name, none)
  | _ :: value => (String.ofList name, some (String.ofList value))

/-- Reads flags up to the first argument that is none, and returns the arguments from there on. -/
def readFlags (f : Flags) : List String → Except String (Flags × List String)
  | [] => .ok (f, [])
  | arg :: rest =>
      if arg = "--" then .ok (f, rest)
      else
        match arg.toList with
        | '-' :: '-' :: c :: cs => readFlag f arg (c :: cs) rest
        | '-' :: c :: cs => readFlag f arg (c :: cs) rest
        | _ => .ok (f, arg :: rest)
where
  /-- Reads one flag, and goes on. -/
  readFlag (f : Flags) (arg : String) (cs : List Char) (rest : List String) :
      Except String (Flags × List String) := do
    if cs.head? = some '-' ∨ cs.head? = some '=' then .error s!"bad flag syntax: {arg}"
    else
      let (name, value) := splitFlag cs
      readFlags (← f.set name value) rest

def parse (args : List String) : Except String Command := do
  let (flags, files) ← readFlags {} args
  if flags.listOperations then .ok .listOperations
  else
    match files with
    | [path] => .ok (.lower path flags.strictPadding)
    | _ => .error s!"expected exactly one model file, got {files.length} arguments"

/-- The list of the operations that can be lowered, a line for each. -/
def operations : String := String.join (Registry.standard.kinds.map fun kind => kind.text ++ "\n")

/-- Lowers a model: the log of the run, and the report or the failure. -/
def lowerReport (strictPadding : Bool) (m : Model) : String × Except Error String :=
  let options := { Settings.standard with strictPadding }.options
  match planTraced options "run" m with
  | .ok (plan, trace) => (Event.log "run" 0 trace.events, .ok plan.report)
  | .error h => (Event.log "run" 0 h.trace.events, .error h.error)

end Command

end NetLowering
