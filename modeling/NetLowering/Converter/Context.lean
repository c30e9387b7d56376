import NetLowering.Model
import NetLowering.Ownership
import NetLowering.Registry

/-! # The context of a conversion

`Options` configure a run, and a `Context` is what a converter sees of it: the node at hand, its
place in the block, and the values that are already in memory.
-/

namespace NetLowering

/-- The options of a run: its registry, whether readers that disagree on a padding are a failure,
the term added to variances, and the slope of leaky rectifiers that carry none. -/
structure Options where
  registry : Registry
  strictPadding : Bool
  epsilon : Single
  alpha : Single

/-- Options as a caller gives them: without a registry, or with a number that is zero, the default
holds. -/
structure Settings where
  registry : Option Registry := none
  strictPadding : Bool := false
  epsilon : Single := ⟨0⟩
  alpha : Single := ⟨0⟩

namespace Settings

def defaultEpsilon : Single := .ofDecimal ⟨1, -5⟩

def defaultAlpha : Single := .ofDecimal ⟨1, -2⟩

/-- The defaults, spelled out. -/
def standard : Settings :=
  { registry := some .standard, epsilon := defaultEpsilon, alpha := defaultAlpha }

def options (s : Settings) : Options :=
  { registry := s.registry.getD .standard
    strictPadding := s.strictPadding
    epsilon := if s.epsilon.isZero then defaultEpsilon else s.epsilon
    alpha := if s.alpha.isZero then defaultAlpha else s.alpha }

end Settings

/-- What a converter sees. `outputPadding` is the border the readers of the node expect, and
`previous` the last plan node of the block so far. -/
structure Context where
  node : Node
  model : Model
  options : Options
  outputPadding : Padding
  table : Ownership
  isFirst : Bool := false
  isLast : Bool := false
  previous : Option PlanNode := none

namespace Context

/-- The border the converter reads its input with: the first of a block reads what the node expects,
the others what the block wrote. -/
def inputPadding (c : Context) : Padding := if c.isFirst then c.node.inputPadding else .absent

def producer (c : Context) (index : Int) : Except Error PlanNode :=
  match index with
  | .ofNat i =>
      match c.node.inputs[i]? with
      | none => fail (.noSuchInput c.node.id c.node.inputs.length index)
      | some value =>
          match c.table.owner? value with
          | none => fail (.inputNotOwned value)
          | some p => .ok p
  | .negSucc _ => fail (.noSuchInput c.node.id c.node.inputs.length index)

/-- An operand of the converter, read as it was written. After the first plan node of a block, its
input 0 is the plan node before. -/
def input (c : Context) (index : Int) : Except Error Operand :=
  match index, c.previous with
  | 0, some p => .ok p.asOperand
  | _, _ => do
      let p ← c.producer index
      .ok p.asOperand

def inputs (c : Context) : Except Error (List Operand) :=
  (List.range c.node.inputs.length).mapM fun i : Nat => c.input i

/-- The shape of the node's output: the one it declares, or else that of its first input. -/
def outputShape (c : Context) : Except Error Shape :=
  match c.node.outputShapes with
  | declared :: _ => declared.canonical 0
  | [] =>
      if c.node.inputs.isEmpty then fail (.noOutputShape c.node.id)
      else do
        let operand ← c.input 0
        .ok operand.buffer.shape

/-- The buffer the converter writes; only the last of a block adds the border the readers expect. -/
def output (c : Context) : Except Error Buffer := do
  let shape ← c.outputShape
  .ok ⟨shape, if c.isLast then c.outputPadding else .absent⟩

/-- A weight of the node in canonical order. -/
def weight (c : Context) (role : String) : Except Error Constant := c.model.canonicalWeight c.node role

/-- A weight of the node as a vector of `size` elements; a scalar is repeated. -/
def vector (c : Context) (role : String) (size : Int64) : Except Error Constant := do
  let t ← c.model.weightTensor c.node role
  if t.dims.isEmpty then
    let data ← t.vector size
    .ok ⟨[size], data⟩
  else
    let a ← c.weight role
    if a.size ≠ size then fail (.weightLength role c.node.id a.size size)
    else .ok ⟨[size], a.data⟩

end Context

end NetLowering
