import NetLowering.Error

/-! # Logical nodes

A node is one operation of a model. Its inputs and outputs are names of values; a value is produced
by one node and read by any number of them.
-/

namespace NetLowering

/-- The tensor a weight of a node stands for. The node may read it in a layout of its own. -/
structure WeightRef where
  tensor : String
  layout : Layout
deriving DecidableEq

/-- An operation of a model. `inputPadding` is the border the node expects around its input; the
border it writes around its output is computed from its readers. -/
structure Node where
  id : String
  kind : OpKind
  inputs : List String := []
  outputs : List String := []
  weights : List (String × WeightRef) := []
  attributes : List (String × AttrValue) := []
  inputPadding : Padding := .absent
  inputShapes : List ShapeDecl := []
  outputShapes : List ShapeDecl := []

namespace Node

/-- The kind and id of a node. -/
def name (n : Node) : String := n.kind.text ++ "(" ++ n.id ++ ")"

/-- A node with its inputs and outputs. -/
def text (n : Node) : String :=
  n.name ++ ": [" ++ ", ".intercalate n.inputs ++ "] -> [" ++ ", ".intercalate n.outputs ++ "]"

def weight? (n : Node) (role : String) : Option WeightRef := n.weights.lookup role

def attribute? (n : Node) (name : String) : Option AttrValue := n.attributes.lookup name

def hasWeight (n : Node) (role : String) : Bool := (n.weight? role).isSome

def hasAttribute (n : Node) (name : String) : Bool := (n.attribute? name).isSome

/-- The value of an attribute the node has to have. -/
def attributeOf (n : Node) (name : String) : Except Error AttrValue :=
  match n.attribute? name with
  | some value => .ok value
  | none => fail (.attributeNotFound n.id name)

/-- An attribute that has to be an integer. -/
def integer (n : Node) (name : String) : Except Error Int64 := do
  let value ← n.attributeOf name
  match value.asInt? with
  | some k => .ok k
  | none => fail (.notInteger n.id name value)

/-- An attribute that has to be a number. -/
def number (n : Node) (name : String) : Except Error Single := do
  let value ← n.attributeOf name
  match value.asSingle? with
  | some x => .ok x
  | none => fail (.notNumber n.id name value)

/-- An attribute that has to be a tag. -/
def word (n : Node) (name : String) : Except Error String := do
  let value ← n.attributeOf name
  match value.asWord? with
  | some s => .ok s
  | none => fail (.notWord n.id name value)

/-- The value a node is known by to its readers: its first output. -/
def firstOutput? (n : Node) : Option String := n.outputs.head?

end Node

end NetLowering
