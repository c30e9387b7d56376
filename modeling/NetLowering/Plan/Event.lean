import NetLowering.Plan

/-! # Events of a run

What happens in a run is recorded as events, and the log is their text. Level 0 holds the nodes left
out and the paddings that had to be chosen, level 1 the order and the final mapping, and level 2
what each converter did.
-/

namespace NetLowering

/-- Something that happened in a run. -/
inductive Event where
  | conflict (c : PaddingConflict)
  | ignored (dropped : List Dropped)
  | ordered (order : List Node)
  | silent (node : Node) (converter : String)
  | emitted (node : Node) (p : PlanNode)
  | elided (node : Node) (owner : PlanNode)
  | mapped (report : String)

namespace Event

/-- How verbose a log has to be to show the event. -/
def level : Event → Int
  | .conflict _ | .ignored _ => 0
  | .ordered _ | .mapped _ => 1
  | .silent _ _ | .emitted _ _ | .elided _ _ => 2

def messages : Event → List String
  | .conflict c =>
      [c.node.text ++ ": consumers require different paddings " ++ c.first.text ++ " and " ++
        c.other.text ++ ", using the first one"]
  | .ignored dropped => "ignoring the following nodes:" :: dropped.map fun d => "    " ++ d.text
  | .ordered order => "processing the following nodes in order:" :: order.map fun n => "    " ++ n.text
  | .silent node converter => [node.text ++ ": " ++ converter ++ " emitted nothing"]
  | .emitted node p =>
      [node.text ++ ": " ++ p.converter ++ " emitted " ++ p.name ++ " " ++ p.primitive.output.text]
  | .elided node owner => [node.text ++ ": elided, outputs owned by " ++ owner.name]
  | .mapped report => ["final mapping of logical nodes to physical nodes:\n" ++ report]

/-- A message as a line of the log of a run: it ends with one newline. -/
def line (run message : String) : String :=
  let text := "[" ++ run ++ "] " ++ message
  if text.toList.getLast? = some '\n' then text else text ++ "\n"

/-- The log of a run at a level of verbosity. -/
def log (run : String) (verbosity : Int) (events : List Event) : String :=
  String.join (((events.filter fun e => e.level ≤ verbosity).flatMap messages).map (line run))

end Event

end NetLowering
