import NetLowering.Model
import NetLowering.Vocabulary

/-! # Model documents

A `Document` is a model as it is written down: tensors and nodes in insertion order, with the
members of the vocabulary by name. `Document.toModel` builds the model it describes, or says which
entry is at fault.
-/

namespace NetLowering

namespace Document

/-- A tensor: either its values, or one value to fill it with. -/
structure TensorEntry where
  id : String := ""
  layout : String := ""
  dims : List Int64 := []
  values : List Double := []
  fill : Option Double := none
  dtype : String := ""

/-- The tensor of a weight, and the layout to read it in if that is not its own. -/
structure WeightEntry where
  tensor : String := ""
  layout : String := ""

/-- An input padding; without a scheme it is filled with zeros. -/
structure PaddingEntry where
  size : Int64 := 0
  scheme : String := ""

structure ShapeEntry where
  dims : List Int64 := []
  layout : String := ""

structure NodeEntry where
  id : String := ""
  kind : String := ""
  inputs : List String := []
  outputs : List String := []
  weights : List (String × WeightEntry) := []
  attributes : List (String × AttrValue) := []
  inputPadding : Option PaddingEntry := none
  inputShapes : List ShapeEntry := []
  outputShapes : List ShapeEntry := []

end Document

/-- A model as it is written down. -/
structure Document where
  name : String := ""
  tensors : List Document.TensorEntry := []
  nodes : List Document.NodeEntry := []

namespace Document

/-- The values of a tensor: those it lists, or as many copies of its fill as its extents describe.
-/
def TensorEntry.flatValues (t : TensorEntry) : Except Error (Array Double) :=
  match t.fill with
  | none => .ok t.values.toArray
  | some x => if t.values.isEmpty then fillBuffer 8 (extentProduct t.dims) x else fail .valuesAndFill

/-- The values in the precision of the tensor. -/
def TensorEntry.flatData [HalfConversion] (t : TensorEntry) (values : Array Double) :
    Except Error FlatData :=
  match t.dtype with
  | "" | "float32" => .ok (.doubles values)
  | "float16" => .ok (.halves (values.map fun x => HalfConversion.narrow x.toSingle))
  | name => fail (.unknownDtype name)

def TensorEntry.addTo [HalfConversion] (t : TensorEntry) (m : Model) : Except Error Model := do
  let layout ← Layout.ofText t.layout
  if t.dims.any (· ≤ 0) then fail (.dimsNotPositive t.dims)
  else
    let values ← t.flatValues
    let flat ← t.flatData values
    m.addTensor t.id flat layout t.dims

/-- The reference of a weight entry; no layout leaves the tensor's own. -/
def WeightEntry.toRef (w : WeightEntry) : Except Error WeightRef :=
  if w.layout = "" then .ok ⟨w.tensor, .unset⟩
  else do
    let layout ← Layout.ofText w.layout
    .ok ⟨w.tensor, layout⟩

def PaddingEntry.toPadding (p : PaddingEntry) : Except Error Padding :=
  if p.scheme = "" then .ok ⟨p.size, .zeros⟩
  else do
    let scheme ← PaddingScheme.ofText p.scheme
    .ok ⟨p.size, scheme⟩

/-- The shapes of entries, counted from `index` on. -/
def toShapes (index : Nat) : List ShapeEntry → Except Error (List ShapeDecl)
  | [] => .ok []
  | s :: rest => do
      let layout ← inScope (.shape index) (Layout.ofText s.layout)
      let others ← toShapes (index + 1) rest
      .ok (⟨s.dims, layout⟩ :: others)

/-- The weights of entries by their roles. -/
def toWeights : List (String × WeightEntry) → Except Error (List (String × WeightRef))
  | [] => .ok []
  | (role, w) :: rest => do
      let ref ← inScope (.weightRole role) w.toRef
      let others ← toWeights rest
      .ok ((role, ref) :: others)

/-- The padding of an entry that may have none. -/
def toPadding : Option PaddingEntry → Except Error Padding
  | none => .ok .absent
  | some p => p.toPadding

def NodeEntry.toNode (n : NodeEntry) : Except Error Node := do
  let kind ← OpKind.ofText n.kind
  let weights ← toWeights n.weights
  let inputPadding ← toPadding n.inputPadding
  let inputShapes ← inScope .inputShapes (toShapes 0 n.inputShapes)
  let outputShapes ← inScope .outputShapes (toShapes 0 n.outputShapes)
  .ok { id := n.id
        kind
        inputs := n.inputs
        outputs := n.outputs
        weights
        attributes := n.attributes
        inputPadding
        inputShapes
        outputShapes }

/-- Adds the node of an entry, the one with the given index. -/
def NodeEntry.addTo (n : NodeEntry) (index : Nat) (m : Model) : Except Error Model := do
  let node ← inScope (.documentNode index n.id) n.toNode
  inScope (.insertion index) (m.addNode node)

/-- Adds tensors, counted from `index` on. -/
def addTensors [HalfConversion] (m : Model) (index : Nat) : List TensorEntry → Except Error Model
  | [] => .ok m
  | t :: rest => do
      let m ← inScope (.documentTensor index t.id) (t.addTo m)
      addTensors m (index + 1) rest

/-- Adds nodes, counted from `index` on. -/
def addNodes (m : Model) (index : Nat) : List NodeEntry → Except Error Model
  | [] => .ok m
  | n :: rest => do
      let m ← n.addTo index m
      addNodes m (index + 1) rest

def toModel [HalfConversion] (d : Document) : Except Error Model := do
  let m ← addTensors .empty 0 d.tensors
  addNodes m 0 d.nodes

end Document

end NetLowering
