import NetLowering.Node

/-! # Nodes left out of a run

A run goes on without the nodes it cannot use, and reports each of them with the reason.
-/

namespace NetLowering

/-- Why a node is left out of a run. -/
inductive DropReason where
  | unsatisfiableInput (missing : List String)
  | deadInput
  | paddingCycle
deriving DecidableEq

namespace DropReason

/-- The wordings of the reasons, in the order of their numbers. -/
def wordings : List String := ["unsatisfiable input", "dead input", "padding cycle"]

def code : DropReason → Int64
  | .unsatisfiableInput _ => 0
  | .deadInput => 1
  | .paddingCycle => 2

/-- The wording of the reason with a number, or the number itself. -/
def textOfCode (code : Int64) : String :=
  let plain := s!"DiagnosticReason({code})"
  if code < 0 then plain else wordings.getD code.toNatClampNeg plain

def text (r : DropReason) : String := textOfCode r.code

end DropReason

structure Dropped where
  id : String
  kind : OpKind
  reason : DropReason
deriving DecidableEq

namespace Dropped

/-- What keeps the node out. An input that nobody reads is no failure. -/
def cause? (d : Dropped) : Option Cause :=
  match d.reason with
  | .unsatisfiableInput missing => some (.neverProduced missing)
  | .deadInput => none
  | .paddingCycle => some (.paddingLoop d.id)

/-- A dropped node with its reason. -/
def text (d : Dropped) : String :=
  d.kind.text ++ "(" ++ d.id ++ "): " ++ d.reason.text ++
    match d.cause? with
    | some cause => ": " ++ cause.message
    | none => ""

end Dropped

end NetLowering
