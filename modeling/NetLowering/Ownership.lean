import NetLowering.Primitive

/-! # Ownership of values

While a model is lowered, `Ownership` records which plan nodes each logical node emitted, and which
plan node owns each value, that is, holds it in memory. A logical node that emits something owns its
outputs through the last node it emitted; one that emits nothing hands them to a node that is
already there. There is one record of emissions: the list of all plan nodes, the plan nodes of a
logical node and the origin of a plan node are read off it.
-/

namespace NetLowering

/-- A plan node with the logical node it comes from. -/
structure Emission where
  origin : Node
  node : PlanNode

/-- The emissions of a run, oldest first, and the owners of values, newest first. -/
structure Ownership where
  emissions : List Emission := []
  owners : List (String × PlanNode) := []

namespace Ownership

/-- All plan nodes, in the order of their numbers. -/
def nodes (t : Ownership) : List PlanNode := t.emissions.map Emission.node

/-- The plan nodes a logical node emitted, in order. -/
def emitted (t : Ownership) (id : String) : List PlanNode :=
  (t.emissions.filter fun e => e.origin.id = id).map Emission.node

/-- The last plan node a logical node emitted, which stands for its output. -/
def last? (t : Ownership) (id : String) : Option PlanNode := (t.emitted id).getLast?

def owner? (t : Ownership) (value : String) : Option PlanNode := t.owners.lookup value

def origin? (t : Ownership) (id : Nat) : Option Node :=
  (t.emissions.find? fun e => e.node.id = id).map Emission.origin

/-- Makes a plan node the owner of all outputs of a logical node. -/
def own (t : Ownership) (n : Node) (p : PlanNode) : Ownership :=
  { t with owners := (n.outputs.map fun value => (value, p)) ++ t.owners }

/-- Records a plan node as emitted by a logical node, and as the owner of its outputs. -/
def emit (t : Ownership) (n : Node) (p : PlanNode) : Ownership :=
  own { t with emissions := t.emissions ++ [⟨n, p⟩] } n p

def nextId (t : Ownership) : Nat := t.emissions.length + 1

end Ownership

end NetLowering
