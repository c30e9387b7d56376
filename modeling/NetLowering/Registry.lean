import NetLowering.Converter

/-! # Registries

A registry assigns blocks to operation kinds. `Registry.standard` holds the blocks of the kinds that
can be lowered; the recurrent kinds, `region` and `vad` are not among them.
-/

namespace NetLowering

/-- Blocks by operation kind, each kind once, in vocabulary order. -/
structure Registry where
  blocks : List (OpKind × Block) := []

namespace Registry

def empty : Registry := {}

/-- Puts a block where its kind belongs, in place of the one that was there. -/
def place (kind : OpKind) (block : Block) : List (OpKind × Block) → List (OpKind × Block)
  | [] => [(kind, block)]
  | entry :: rest =>
      if kind = entry.1 then (kind, block) :: rest
      else if kind.code < entry.1.code then (kind, block) :: entry :: rest
      else entry :: place kind block rest

def register (r : Registry) (kind : OpKind) (block : Block) : Registry := ⟨place kind block r.blocks⟩

/-- A copy to be extended on its own: every block, put into a new registry. -/
def clone (r : Registry) : Registry :=
  r.blocks.foldl (fun copy entry => copy.register entry.1 entry.2) empty

/-- The kinds with a block, in vocabulary order. -/
def kinds (r : Registry) : List OpKind := r.blocks.map Prod.fst

/-- The block of a kind. An empty block is as good as none. -/
def lookup (r : Registry) (kind : OpKind) : Except Error Block :=
  match r.blocks.lookup kind with
  | some (c :: rest) => .ok (c :: rest)
  | _ => fail (.noConverter kind)

/-! ### The standard converters -/

def input : Converter := { name := "Input", action := .input }

/-- Copies an input of the model into a padded buffer if its readers expect one. -/
def outputReorder : Converter :=
  { name := "OptionalOutputReorder"
    optional := true
    adapter := true
    condition := some .outputPadded
    action := .outputReorder }

/-- Copies the input of a node if it was not written with the border the node expects. -/
def inputReorder : Converter :=
  { name := "OptionalInputReorder"
    optional := true
    adapter := true
    condition := some .inputPaddedOtherwise
    action := .inputReorder }

def constant : Converter := { name := "Constant", weights := ["value"], action := .constant }

def convolution : Converter :=
  { name := "Convolution"
    weights := ["weights"]
    attributes := ["size", "stride"]
    action := .convolution }

def binaryConvolution : Converter :=
  { convolution with name := "BinaryConvolution", action := .binaryConvolution }

def fullyConnected : Converter :=
  { name := "FullyConnected", weights := ["weights"], action := .fullyConnected }

/-- A term for each channel. -/
def bias : Converter := { name := "Bias", weights := ["bias"], action := .bias }

/-- A factor for each channel. -/
def scaling : Converter := { name := "Scaling", weights := ["scale"], action := .scaling }

/-- A term for each channel, subtracted. -/
def minus : Converter := { name := "Minus", weights := ["bias"], action := .minus }

/-- Normalization by a mean and a variance for each channel. -/
def batchNormalization : Converter :=
  { name := "BatchNormalization", weights := ["mean", "variance"], action := .batchNormalization }

def activation : Converter :=
  { name := "Activation", attributes := ["activation"], action := .activation }

def fixedActivation (a : Activation) : Converter :=
  { name := "Activation", action := .fixedActivation a }

def prelu : Converter := { name := "PReLU", weights := ["alpha"], action := .fixedActivation .prelu }

def softmax : Converter := { name := "Softmax", action := .softmax }

def fixedPooling (p : Pooling) : Converter :=
  { name := "Pooling", attributes := ["size", "stride"], action := .fixedPooling p }

def pooling : Converter :=
  { name := "Pooling", attributes := ["size", "stride", "pooling_type"], action := .pooling }

def binary (op : BinaryOp) : Converter := { name := "BinaryOperation", action := .binary op }

def unary (op : UnaryOp) : Converter := { name := "UnaryOperation", action := .unary op }

def splice : Converter := { name := "Splice", action := .splice }

def reorder : Converter := { name := "Reorder", action := .reorder }

/-- The same elements under another shape. -/
def reshape : Converter := { name := "Reshape", action := .reshape }

def passthrough : Converter := { name := "Passthrough", action := .passthrough }

/-- The block of each kind that can be lowered; empty for the others. -/
def standardBlock : OpKind → Block
  | .input => [input, outputReorder]
  | .constant => [constant]
  | .convolution => [inputReorder, convolution, bias.asOptional, activation.asOptional]
  | .binaryConvolution => [inputReorder, binaryConvolution, bias.asOptional, activation.asOptional]
  | .fullyConnected => [fullyConnected, bias.asOptional, activation.asOptional]
  | .batchNormalization => [batchNormalization, scaling.asOptional, bias.asOptional]
  | .bias => [bias]
  | .scaling => [scaling]
  | .minus => [minus]
  | .activation => [activation]
  | .relu => [fixedActivation .relu]
  | .leakyRelu => [fixedActivation .leakyRelu]
  | .prelu => [prelu]
  | .sigmoid => [fixedActivation .sigmoid]
  | .tanh => [fixedActivation .tanh]
  | .hardSigmoid => [fixedActivation .hardSigmoid]
  | .softmax => [softmax]
  | .maxPooling => [fixedPooling .max]
  | .averagePooling => [fixedPooling .mean]
  | .pooling => [pooling]
  | .plus => [binary .add]
  | .subtract => [binary .subtract]
  | .elementwiseMul => [binary .multiply]
  | .abs => [unary .abs]
  | .exp => [unary .exp]
  | .log => [unary .log]
  | .sqrt => [unary .sqrt]
  | .sign => [unary .sign]
  | .sin => [unary .sin]
  | .cos => [unary .cos]
  | .square => [unary .square]
  | .splice => [splice]
  | .reorder => [reorder]
  | .reshape => [reshape]
  | .passthrough => [passthrough]
  | .invalid | .skip | .gru | .lstm | .region | .vad | .unlisted _ _ => []

/-- The standard registry: a block for each kind that can be lowered. -/
def standard : Registry :=
  ⟨(OpKind.vocabulary.filter fun kind => !(standardBlock kind).isEmpty).map fun kind =>
    (kind, standardBlock kind)⟩

end Registry

end NetLowering
