import NetLowering.Node
import NetLowering.Shape.Canonical
import NetLowering.Tensor

/-! # Models

A model is a list of nodes in the order they were added, and a store of tensors. Both only grow:
`Model.addNode` and `Model.addTensor` refuse an id that is taken. Everything that is asked of a model
is read off the two lists here. `IndexedModel` keeps tables for it beside them, and is what a model is
built up in.
-/

namespace NetLowering

/-- The nodes and constants of a network. -/
structure Model where
  nodes : List Node := []
  tensors : List Tensor := []

namespace Model

def empty : Model := {}

/-! ### Tensors -/

def tensor? (m : Model) (id : String) : Option Tensor := m.tensors.find? fun t => t.id = id

/-- The tensor with an id that has to be there. -/
def tensor (m : Model) (id : String) : Except Error Tensor :=
  match m.tensor? id with
  | some t => .ok t
  | none => fail (.tensorNotFound id)

/-- Adds a tensor under an id of its own. -/
def addTensor [HalfConversion] (m : Model) (id : String) (flat : FlatData) (layout : Layout)
    (dims : List Int64) : Except Error Model := do
  if (m.tensor? id).isSome then fail (.duplicateTensor id)
  else
    let t ← Tensor.make id flat layout dims
    .ok { m with tensors := m.tensors ++ [t] }

/-- The tensor with an id, in canonical order. -/
def canonicalTensor (m : Model) (id : String) : Except Error Constant := do
  let t ← m.tensor id
  t.canonical

/-! ### Nodes -/

def node? (m : Model) (id : String) : Option Node := m.nodes.find? fun n => n.id = id

/-- The node with an id that has to be there. -/
def node (m : Model) (id : String) : Except Error Node :=
  match m.node? id with
  | some n => .ok n
  | none => fail (.nodeNotFound id)

/-- The node that lists a value among its outputs. -/
def producer? (m : Model) (value : String) : Option Node :=
  m.nodes.find? fun n => n.outputs.contains value

/-- The nodes that list a value among their inputs, in insertion order, each as often as it lists
it. -/
def consumers (m : Model) (value : String) : List Node :=
  m.nodes.flatMap fun n => (n.inputs.filter (· = value)).map fun _ => n

/-- The nodes that read the first output of a node. -/
def readers (m : Model) (n : Node) : List Node :=
  match n.firstOutput? with
  | some value => m.consumers value
  | none => []

/-- The first output of a node that another node already produces, with that node. -/
def takenOutput? (m : Model) (n : Node) : Option (String × Node) :=
  n.outputs.findSome? fun value => (m.producer? value).map fun other => (value, other)

/-- Adds a node. Its id has to be new, and no other node may produce its outputs. -/
def addNode (m : Model) (n : Node) : Except Error Model :=
  if n.id = "" then fail .unnamedNode
  else if (m.node? n.id).isSome then fail (.duplicateNode n.id)
  else if n.inputPadding.size < 0 then fail (.negativeInputPadding n.id n.inputPadding.size)
  else
    match m.takenOutput? n with
    | some (value, other) => fail (.duplicateOutput value n.id other.id)
    | none => .ok { m with nodes := m.nodes ++ [n] }

/-! ### Weights -/

def weightTensor (m : Model) (n : Node) (role : String) : Except Error Tensor :=
  match n.weight? role with
  | none => fail (.weightNotFound n.id role)
  | some ref => inScope (.weight role n.id) (m.tensor ref.tensor)

/-- The layout a weight is read in: that of its reference if it has one, else that of the tensor. -/
def weightLayout (n : Node) (role : String) (t : Tensor) : Layout :=
  match n.weight? role with
  | some ref => if ref.layout = .unset then t.layout else ref.layout
  | none => t.layout

def canonicalWeight (m : Model) (n : Node) (role : String) : Except Error Constant := do
  let t ← m.weightTensor n role
  inScope (.weight role n.id) (t.canonicalAs (weightLayout n role t))

end Model

end NetLowering
