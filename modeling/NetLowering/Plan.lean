import NetLowering.Converter.Conversion
import NetLowering.Padding.Propagation
import NetLowering.Schedule

/-! # Plans

A `Plan` is the outcome of lowering a model: the logical nodes in the order they were lowered, those
left out, the plan nodes with the owners of all values, and the outputs of the network. The mapping
report shows, for each logical node, what it became.
-/

namespace NetLowering

/-- An output of the network: its name in the model, and the plan node that holds it. -/
structure PlanOutput where
  name : String
  node : PlanNode

structure Plan where
  order : List Node
  dropped : List Dropped
  table : Ownership
  outputs : List PlanOutput

namespace Plan

def nodes (p : Plan) : List PlanNode := p.table.nodes

def inputs (p : Plan) : List PlanNode := p.nodes.filter fun q => q.primitive.kind = .input

/-- The logical nodes that emitted something, each with what it emitted. -/
def mapping (p : Plan) : List (String × List PlanNode) :=
  (p.order.map fun n => (n.id, p.table.emitted n.id)).filter fun entry => !entry.2.isEmpty

/-- Whether no node of the order reads an output of the node. -/
def isTerminal (order : List Node) (n : Node) : Bool :=
  n.outputs.all fun value => !(order.flatMap Node.inputs).contains value

/-- The outputs of the network: the first output of each terminal node, under its owner. -/
def outputsOf (order : List Node) (table : Ownership) : List PlanOutput :=
  (order.filter (isTerminal order)).filterMap fun n =>
    n.firstOutput?.bind fun value => (table.owner? value).map fun q => ⟨value, q⟩

/-! ### The mapping report -/

/-- What a logical node became: the nodes it emitted, or the owner of its output. -/
def target (p : Plan) (n : Node) : String :=
  match p.table.emitted n.id with
  | [] =>
      match n.firstOutput?.bind p.table.owner? with
      | some q => "(elided to " ++ q.name ++ ")"
      | none => ""
  | emitted => ", ".intercalate (emitted.map PlanNode.name)

/-- The width of the column of names: the size in bytes of the longest. -/
def nameWidth (p : Plan) : Nat := p.order.foldl (fun width n => max width n.name.utf8ByteSize) 0

/-- The lines of the report, one for each logical node in order. -/
def reportLines (p : Plan) : List String :=
  p.order.map fun n => "    " ++ Text.alignRight p.nameWidth n.name ++ " -> " ++ p.target n ++ "\n"

def report (p : Plan) : String := String.join p.reportLines

end Plan

end NetLowering
