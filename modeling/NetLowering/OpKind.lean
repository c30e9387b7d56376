import NetLowering.Text.Quoted

/-! # Operation kinds

The vocabulary of operations a logical node can carry. The kinds are numbered in vocabulary order,
from `invalid` at zero; `OpKind.ofCode` also takes numbers outside the vocabulary, which stay apart
as `unlisted`.
-/

namespace NetLowering

/-- What a logical node does. -/
inductive OpKind where
  | invalid
  | input
  | constant
  | convolution
  | binaryConvolution
  | fullyConnected
  | batchNormalization
  | bias
  | scaling
  | minus
  | activation
  | relu
  | leakyRelu
  | prelu
  | sigmoid
  | tanh
  | hardSigmoid
  | softmax
  | maxPooling
  | averagePooling
  | pooling
  | plus
  | subtract
  | elementwiseMul
  | abs
  | exp
  | log
  | sqrt
  | sign
  | sin
  | cos
  | square
  | splice
  | reorder
  | reshape
  | passthrough
  | skip
  | gru
  | lstm
  | region
  | vad
  | unlisted (code : Int64) (outside : code < 0 ∨ 40 < code)
deriving DecidableEq

namespace OpKind

/-- The kinds with a name, in vocabulary order. -/
def listed : List OpKind :=
  [.invalid, .input, .constant, .convolution, .binaryConvolution, .fullyConnected, .batchNormalization,
   .bias, .scaling, .minus, .activation, .relu, .leakyRelu, .prelu, .sigmoid, .tanh, .hardSigmoid,
   .softmax, .maxPooling, .averagePooling, .pooling, .plus, .subtract, .elementwiseMul, .abs, .exp,
   .log, .sqrt, .sign, .sin, .cos, .square, .splice, .reorder, .reshape, .passthrough, .skip, .gru,
   .lstm, .region, .vad]

def code : OpKind → Int64
  | .invalid => 0
  | .input => 1
  | .constant => 2
  | .convolution => 3
  | .binaryConvolution => 4
  | .fullyConnected => 5
  | .batchNormalization => 6
  | .bias => 7
  | .scaling => 8
  | .minus => 9
  | .activation => 10
  | .relu => 11
  | .leakyRelu => 12
  | .prelu => 13
  | .sigmoid => 14
  | .tanh => 15
  | .hardSigmoid => 16
  | .softmax => 17
  | .maxPooling => 18
  | .averagePooling => 19
  | .pooling => 20
  | .plus => 21
  | .subtract => 22
  | .elementwiseMul => 23
  | .abs => 24
  | .exp => 25
  | .log => 26
  | .sqrt => 27
  | .sign => 28
  | .sin => 29
  | .cos => 30
  | .square => 31
  | .splice => 32
  | .reorder => 33
  | .reshape => 34
  | .passthrough => 35
  | .skip => 36
  | .gru => 37
  | .lstm => 38
  | .region => 39
  | .vad => 40
  | .unlisted code _ => code

def ofCode (code : Int64) : OpKind :=
  if outside : code < 0 ∨ 40 < code then .unlisted code outside
  else listed.getD code.toNatClampNeg .invalid

def text : OpKind → String
  | .invalid => "Invalid"
  | .input => "Input"
  | .constant => "Constant"
  | .convolution => "Convolution"
  | .binaryConvolution => "BinaryConvolution"
  | .fullyConnected => "FullyConnected"
  | .batchNormalization => "BatchNormalization"
  | .bias => "Bias"
  | .scaling => "Scaling"
  | .minus => "Minus"
  | .activation => "Activation"
  | .relu => "ReLU"
  | .leakyRelu => "LeakyReLU"
  | .prelu => "PReLU"
  | .sigmoid => "Sigmoid"
  | .tanh => "Tanh"
  | .hardSigmoid => "HardSigmoid"
  | .softmax => "Softmax"
  | .maxPooling => "MaxPooling"
  | .averagePooling => "AveragePooling"
  | .pooling => "Pooling"
  | .plus => "Plus"
  | .subtract => "Subtract"
  | .elementwiseMul => "ElementwiseMul"
  | .abs => "Abs"
  | .exp => "Exp"
  | .log => "Log"
  | .sqrt => "Sqrt"
  | .sign => "Sign"
  | .sin => "Sin"
  | .cos => "Cos"
  | .square => "Square"
  | .splice => "Splice"
  | .reorder => "Reorder"
  | .reshape => "Reshape"
  | .passthrough => "Passthrough"
  | .skip => "Skip"
  | .gru => "GRU"
  | .lstm => "LSTM"
  | .region => "Region"
  | .vad => "VAD"
  | .unlisted code _ => s!"OpKind({code})"

/-- The kinds a model can be written with: all that have a name but `invalid`. -/
def vocabulary : List OpKind := listed.drop 1

/-- Reads the name of a kind; `ElementTimes` is another name of scaling. -/
def ofText? (name : String) : Option OpKind :=
  if name = "ElementTimes" then some .scaling
  else vocabulary.find? fun kind => kind.text = name

/-- Whether the kind hands the padding its readers require on to its producer, and requires none
itself. -/
def isTransparent : OpKind → Bool
  | .splice | .reorder | .passthrough => true
  | _ => false

end OpKind

end NetLowering
