import NetLowering.Converter.Context

/-! # What converters build

`Action.convert` gives the outcome of each standard action in a context: a primitive to emit, a plan
node to forward the outputs to, or a failure. The checks of an action come in the order in which
their failures are reported.
-/

namespace NetLowering

/-- What a conversion comes to: a primitive to emit, if any, and the plan node that takes over the
outputs of the node if nothing is emitted. -/
structure Outcome where
  emit : Option Primitive := none
  forward : Option PlanNode := none

def Outcome.ofPrimitive (p : Primitive) : Outcome := { emit := some p }

namespace Context

/-- Leaves the outputs of the node with the owner of one of its inputs. -/
def forward (c : Context) (index : Int) : Except Error Outcome := do
  let p ← c.producer index
  .ok { forward := some p }

/-- An operand read with the border the node expects. -/
def paddedInput (c : Context) : Except Error Operand := do
  let operand ← c.input 0
  .ok { operand with buffer := { operand.buffer with padding := c.inputPadding } }

/-- The size and stride of a window, both positive. -/
def window (c : Context) : Except Error (Int64 × Int64) := do
  let size ← c.node.integer "size"
  let stride ← c.node.integer "stride"
  if size ≤ 0 ∨ stride ≤ 0 then fail (.invalidWindow size stride)
  else .ok (size, stride)

/-- The input of a model. It declares its shape as an output or else as an input. -/
def convertInput (c : Context) : Except Error Primitive :=
  match c.node.outputShapes ++ c.node.inputShapes with
  | [] => fail (.inputWithoutShape c.node.id)
  | declared :: _ => do
      let shape ← declared.canonical 0
      .ok { kind := .input
            output := ⟨shape, .absent⟩
            attributes := [("name", .word c.node.id)] }

/-- A copy of input 0 into a buffer with the given border. -/
def convertCopy (c : Context) (padding : Padding) : Except Error Primitive := do
  let operand ← c.input 0
  .ok { kind := .reorder
        operands := [operand]
        output := ⟨operand.buffer.shape, padding⟩ }

/-- A constant read as rows, columns and channels: missing leading axes count as one, and more than
three axes as channels all. -/
def constantShape (a : Constant) : Shape :=
  match a.dims with
  | [] => ⟨1, 1, 1⟩
  | [channels] => ⟨1, 1, channels⟩
  | [columns, channels] => ⟨1, columns, channels⟩
  | [rows, columns, channels] => ⟨rows, columns, channels⟩
  | _ => ⟨1, 1, a.size⟩

/-- A constant value, in the shape declared for it if there is one. -/
def convertConstant (c : Context) : Except Error Primitive := do
  let value ← c.weight "value"
  let output ←
    if c.node.outputShapes.isEmpty then .ok ⟨constantShape value, c.outputPadding⟩ else c.output
  if output.shape.size ≠ value.size then fail (.constantSize value.size output.shape)
  else .ok { kind := .constant, output, constants := [("value", value)] }

/-- A convolution of either kind: one filter for each output channel. -/
def convertConvolution (c : Context) (kind : PrimitiveKind) : Except Error Primitive := do
  let operand ← c.paddedInput
  let (size, stride) ← c.window
  let weights ← c.weight "weights"
  match weights.dims with
  | [filters, _, _, _] =>
      let output ← c.output
      if filters ≠ output.shape.channels then fail (.filterCount filters output.shape)
      else
        .ok { kind
              operands := [operand]
              output
              attributes := [("size", .integer size), ("stride", .integer stride)]
              constants := [("weights", weights)] }
  | dims => fail (.convolutionRank dims)

/-- A matrix product: a row of weights for each output element, a column for each input element. -/
def convertFullyConnected (c : Context) : Except Error Primitive := do
  let operand ← c.paddedInput
  let weights ← c.weight "weights"
  let output ← c.output
  let rows := output.shape.size
  let columns := operand.buffer.shape.size
  if weights.size ≠ rows * columns then fail (.weightCount weights.size rows columns)
  else
    .ok { kind := .fullyConnected
          operands := [operand]
          output
          constants := [("weights", ⟨[rows, columns], weights.data⟩)] }

/-- An operation with one number for each channel. -/
def convertPerChannel (c : Context) (kind : PrimitiveKind) (role : String) : Except Error Primitive := do
  let operand ← c.input 0
  let output ← c.output
  let vector ← c.vector role output.shape.channels
  .ok { kind, operands := [operand], output, constants := [(role, vector)] }

/-- The subtraction of one number for each channel, as the addition of its negative. -/
def convertMinus (c : Context) : Except Error Primitive := do
  let p ← c.convertPerChannel .bias "bias"
  .ok { p with constants := p.constants.map fun (role, a) => (role, ⟨a.dims, a.data.map Single.neg⟩) }

def convertBatchNormalization (c : Context) : Except Error Primitive := do
  let p ← c.convertPerChannel .batchNormalization "mean"
  let variance ← c.vector "variance" p.output.shape.channels
  .ok { p with
        constants := p.constants ++ [("variance", variance)]
        attributes := [("epsilon", .single c.options.epsilon)] }

/-- The slope of a leaky rectifier: the node's own, or the default of the run. -/
def leakySlope (c : Context) : Except Error Single :=
  if c.node.hasAttribute "alpha" then c.node.number "alpha" else .ok c.options.alpha

def convertActivation (c : Context) (a : Activation) : Except Error Primitive := do
  let operand ← c.input 0
  let output ← c.output
  let plain : Primitive :=
    { kind := .activation
      operands := [operand]
      output
      attributes := [("activation", .word a.text)] }
  match a with
  | .leakyRelu =>
      let slope ← c.leakySlope
      .ok { plain with attributes := plain.attributes ++ [("alpha", .single slope)] }
  | .prelu =>
      if c.node.hasWeight "alpha" then
        let slopes ← c.vector "alpha" output.shape.channels
        .ok { plain with constants := [("alpha", slopes)] }
      else fail .preluWithoutSlope
  | _ => .ok plain

def convertTaggedActivation (c : Context) : Except Error Primitive := do
  let tag ← c.node.word "activation"
  match Activation.ofTag? tag with
  | none => fail (.unknownActivation tag)
  | some a => c.convertActivation a

/-- An operation on input 0 alone that keeps its place. -/
def convertPlain (c : Context) (kind : PrimitiveKind) (attributes : List (String × AttrValue)) :
    Except Error Primitive := do
  let operand ← c.input 0
  let output ← c.output
  .ok { kind, operands := [operand], output, attributes }

def convertPooling (c : Context) (p : Pooling) : Except Error Primitive := do
  let operand ← c.paddedInput
  let (size, stride) ← c.window
  let output ← c.output
  .ok { kind := .pooling
        operands := [operand]
        output
        attributes :=
          [("pooling_type", .word p.text), ("size", .integer size), ("stride", .integer stride)] }

def convertTaggedPooling (c : Context) : Except Error Primitive := do
  let tag ← c.node.word "pooling_type"
  match Pooling.ofTag? tag with
  | none => fail (.unknownPooling tag)
  | some p => c.convertPooling p

/-- An operation on two values of one shape, each read as it was written. -/
def convertBinary (c : Context) (op : BinaryOp) : Except Error Primitive :=
  if c.node.inputs.length ≠ 2 then fail (.binaryInputs op.text c.node.inputs.length)
  else do
    let first ← c.input 0
    let second ← c.input 1
    if first.buffer.shape ≠ second.buffer.shape then
      fail (.binaryShapes op.text first.buffer.shape second.buffer.shape)
    else
      let output ← c.output
      .ok { kind := .binaryOperation
            operands := [first, second]
            output
            attributes := [("operation", .word op.text)] }

/-- Shapes stacked along the channels; their rows and columns have to agree with those of the first.
-/
def stack (first : Shape) (shapes : List Shape) : Except Error Shape :=
  match shapes.find? fun s => s.rows ≠ first.rows ∨ s.columns ≠ first.columns with
  | some other => fail (.spliceExtents first other)
  | none => .ok { first with channels := (shapes.map Shape.channels).foldl (· + ·) 0 }

/-- Several values stacked along the channels. -/
def convertConcatenation (c : Context) : Except Error Primitive :=
  match c.node.word spliceAxisAttribute with
  | .error _ => fail (.spliceWithoutAxis c.node.inputs.length)
  | .ok axis =>
      if axis ≠ "channel" then fail (.spliceAxis axis)
      else do
        let operands ← c.inputs
        match operands with
        | [] => fail .spliceWithoutInputs
        | first :: _ =>
            let stacked ← stack first.buffer.shape (operands.map fun o => o.buffer.shape)
            let output ← c.output
            if !c.node.outputShapes.isEmpty && output.shape ≠ stacked then
              fail (.spliceShape output.shape stacked)
            else
              .ok { kind := .concatenation
                    operands
                    output := { output with shape := stacked }
                    attributes := [("axis", .word "channel")] }

/-- A splice: nothing is to be done for a single value. -/
def convertSplice (c : Context) : Except Error Outcome :=
  match c.node.inputs with
  | [] => fail .spliceWithoutInputs
  | [_] => c.forward 0
  | _ => Outcome.ofPrimitive <$> c.convertConcatenation

/-- A copy of as many elements into another layout. -/
def convertReorder (c : Context) : Except Error Primitive := do
  let operand ← c.input 0
  let output ← c.output
  if operand.buffer.shape.size ≠ output.shape.size then
    fail (.reorderSize operand.buffer.shape output.shape)
  else .ok { kind := .reorder, operands := [operand], output }

/-- As many elements under another shape; nothing is to be done if the buffer stays the same. -/
def convertReshape (c : Context) : Except Error Outcome := do
  let operand ← c.input 0
  let output ← c.output
  if operand.buffer = output then c.forward 0
  else if operand.buffer.shape.size ≠ output.shape.size then
    fail (.reshapeSize operand.buffer.shape output.shape)
  else .ok (.ofPrimitive { kind := .reshape, operands := [operand], output })

/-! ### Scripts -/

/-- The primitive a script ends with. -/
def convertScripted (c : Context) (s : ScriptedPrimitive) : Except Error Primitive := do
  let operands ← s.operands.mapM c.input
  let output ← c.output
  .ok { kind := s.kind, operands, output, attributes := s.attributes }

end Context

/-- What the ownership table holds about an id. -/
structure TableEntry where
  emitted : List Nat
  last : Option Nat
  owner : Option Nat

/-- The entry of a node or value in the ownership table. -/
def Ownership.entry (t : Ownership) (id : String) : TableEntry :=
  { emitted := (t.emitted id).map PlanNode.id
    last := (t.last? id).map PlanNode.id
    owner := (t.owner? id).map PlanNode.id }

/-- The answer to a query. -/
inductive Reply where
  | operand (o : Operand)
  | operands (os : List Operand)
  | node (id : Nat)
  | buffer (b : Buffer)
  | shape (s : Shape)
  | padding (p : Padding)
  | constant (a : Constant)
  | done
  | options (o : Options)
  | count (n : Nat)
  | entry (e : TableEntry)
  | failed (e : Error)

namespace Context

/-- Asks a query, and forwards the outputs of the node if it says so. -/
def ask (c : Context) : Query → Except Error (Reply × Option PlanNode)
  | .input index => (fun o => (.operand o, none)) <$> c.input index
  | .inputs => (fun os => (.operands os, none)) <$> c.inputs
  | .producer index => (fun p => (.node p.id, none)) <$> c.producer index
  | .output => (fun b => (.buffer b, none)) <$> c.output
  | .outputShape => (fun s => (.shape s, none)) <$> c.outputShape
  | .inputPadding => .ok (.padding c.inputPadding, none)
  | .outputPadding => .ok (.padding c.outputPadding, none)
  | .weight role => (fun a => (.constant a, none)) <$> c.weight role
  | .vector role size => (fun a => (.constant a, none)) <$> c.vector role size
  | .forward index => (fun p => (.done, some p)) <$> c.producer index
  | .options => .ok (.options c.options, none)
  | .model => .ok (.count c.model.nodes.length, none)
  | .table id => .ok (.entry (c.table.entry id), none)

end Context

structure Exchange where
  query : Query
  reply : Reply

/-- Asks queries one after the other. A failure is a reply like others, unless no result is left at
all; the last forwarding counts. -/
def Context.askAll (c : Context) :
    List Query → Option PlanNode → List Exchange × Except Error (Option PlanNode)
  | [], forwarded => ([], .ok forwarded)
  | q :: rest, forwarded =>
      match c.ask q with
      | .ok (reply, target) =>
          let (later, result) := c.askAll rest (target <|> forwarded)
          (⟨q, reply⟩ :: later, result)
      | .error e =>
          if e.isAbort then ([], .error e)
          else
            let (later, result) := c.askAll rest forwarded
            (⟨q, .failed e⟩ :: later, result)

/-- How a script ends. -/
def Context.finishScript (c : Context) (s : Script) (forwarded : Option PlanNode) :
    Except Error Outcome :=
  match s.failure, s.result with
  | some text, _ => fail (.reported text)
  | none, none => .ok { forward := forwarded }
  | none, some p =>
      (fun primitive => { emit := some primitive, forward := forwarded }) <$> c.convertScripted p

/-- Runs a script: what it asked, and what it comes to. -/
def Context.runScript (c : Context) (s : Script) : List Exchange × Except Error Outcome :=
  match c.askAll s.queries none with
  | (exchanges, .error e) => (exchanges, .error e)
  | (exchanges, .ok forwarded) => (exchanges, c.finishScript s forwarded)

/-- What an action asks and comes to in a context. Only scripts ask. -/
def Action.convert (a : Action) (c : Context) : List Exchange × Except Error Outcome :=
  match a with
  | .input => ([], Outcome.ofPrimitive <$> c.convertInput)
  | .outputReorder => ([], Outcome.ofPrimitive <$> c.convertCopy c.outputPadding)
  | .inputReorder => ([], Outcome.ofPrimitive <$> c.convertCopy c.node.inputPadding)
  | .constant => ([], Outcome.ofPrimitive <$> c.convertConstant)
  | .convolution => ([], Outcome.ofPrimitive <$> c.convertConvolution .convolution)
  | .binaryConvolution => ([], Outcome.ofPrimitive <$> c.convertConvolution .binaryConvolution)
  | .fullyConnected => ([], Outcome.ofPrimitive <$> c.convertFullyConnected)
  | .bias => ([], Outcome.ofPrimitive <$> c.convertPerChannel .bias "bias")
  | .scaling => ([], Outcome.ofPrimitive <$> c.convertPerChannel .scaling "scale")
  | .minus => ([], Outcome.ofPrimitive <$> c.convertMinus)
  | .batchNormalization => ([], Outcome.ofPrimitive <$> c.convertBatchNormalization)
  | .activation => ([], Outcome.ofPrimitive <$> c.convertTaggedActivation)
  | .fixedActivation a => ([], Outcome.ofPrimitive <$> c.convertActivation a)
  | .softmax => ([], Outcome.ofPrimitive <$> c.convertPlain .softmax [])
  | .pooling => ([], Outcome.ofPrimitive <$> c.convertTaggedPooling)
  | .fixedPooling p => ([], Outcome.ofPrimitive <$> c.convertPooling p)
  | .binary op => ([], Outcome.ofPrimitive <$> c.convertBinary op)
  | .unary op =>
      ([], Outcome.ofPrimitive <$> c.convertPlain .unaryOperation [("operation", .word op.text)])
  | .splice => ([], c.convertSplice)
  | .reorder => ([], Outcome.ofPrimitive <$> c.convertReorder)
  | .reshape => ([], c.convertReshape)
  | .passthrough => ([], c.forward 0)
  | .script s => c.runScript s

def Condition.holds (condition : Condition) (c : Context) : Bool :=
  match condition with
  | .constant value => value
  | .outputPadded => 0 < c.outputPadding.size
  | .inputPaddedOtherwise =>
      match c.producer 0 with
      | .ok p => p.primitive.output.padding ≠ c.node.inputPadding
      | .error _ => false

end NetLowering
