import NetLowering.Node
import NetLowering.Tensor

/-! # Primitives of the target

What a logical node is lowered to: a `Primitive` says which operation of the target to perform, on
which operands, with which constants, and how its result lies in memory; a `PlanNode` is a primitive
with its place in a plan.
-/

namespace NetLowering

/-- The operations of the target; `unlisted` keeps a number that names none. -/
inductive PrimitiveKind where
  | invalid
  | input
  | constant
  | reorder
  | convolution
  | binaryConvolution
  | fullyConnected
  | bias
  | scaling
  | batchNormalization
  | activation
  | pooling
  | softmax
  | binaryOperation
  | unaryOperation
  | concatenation
  | reshape
  | unlisted (code : Int64) (outside : code < 0 ∨ 16 < code)
deriving DecidableEq

namespace PrimitiveKind

/-- The kinds with a name, in the order of their numbers. -/
def listed : List PrimitiveKind :=
  [.invalid, .input, .constant, .reorder, .convolution, .binaryConvolution, .fullyConnected, .bias,
   .scaling, .batchNormalization, .activation, .pooling, .softmax, .binaryOperation, .unaryOperation,
   .concatenation, .reshape]

def code : PrimitiveKind → Int64
  | .invalid => 0
  | .input => 1
  | .constant => 2
  | .reorder => 3
  | .convolution => 4
  | .binaryConvolution => 5
  | .fullyConnected => 6
  | .bias => 7
  | .scaling => 8
  | .batchNormalization => 9
  | .activation => 10
  | .pooling => 11
  | .softmax => 12
  | .binaryOperation => 13
  | .unaryOperation => 14
  | .concatenation => 15
  | .reshape => 16
  | .unlisted code _ => code

def ofCode (code : Int64) : PrimitiveKind :=
  if outside : code < 0 ∨ 16 < code then .unlisted code outside
  else listed.getD code.toNatClampNeg .invalid

def text : PrimitiveKind → String
  | .invalid => "Invalid"
  | .input => "Input"
  | .constant => "Constant"
  | .reorder => "Reorder"
  | .convolution => "Convolution"
  | .binaryConvolution => "BinaryConvolution"
  | .fullyConnected => "FullyConnected"
  | .bias => "Bias"
  | .scaling => "Scaling"
  | .batchNormalization => "BatchNormalization"
  | .activation => "Activation"
  | .pooling => "Pooling"
  | .softmax => "Softmax"
  | .binaryOperation => "BinaryOperation"
  | .unaryOperation => "UnaryOperation"
  | .concatenation => "Concatenation"
  | .reshape => "Reshape"
  | .unlisted code _ => s!"PhysicalKind({code})"

end PrimitiveKind

/-! ### Choices within a kind -/

/-- The function of an activation. -/
inductive Activation where
  | relu
  | leakyRelu
  | prelu
  | sigmoid
  | tanh
  | hardSigmoid
deriving DecidableEq

namespace Activation

def text : Activation → String
  | .relu => "relu"
  | .leakyRelu => "leaky_relu"
  | .prelu => "prelu"
  | .sigmoid => "sigmoid"
  | .tanh => "tanh"
  | .hardSigmoid => "hard_sigmoid"

/-- Reads a tag in any case, and the other spellings in use. -/
def ofTag? (tag : String) : Option Activation :=
  match Text.lowerTag tag with
  | "relu" => some .relu
  | "leaky" | "leaky_relu" | "leakyrelu" => some .leakyRelu
  | "prelu" | "parametric_relu" => some .prelu
  | "sigmoid" => some .sigmoid
  | "tanh" => some .tanh
  | "hard_sigmoid" | "hardsigmoid" => some .hardSigmoid
  | _ => none

end Activation

/-- The reduction of a pooling. -/
inductive Pooling where
  | max
  | mean
deriving DecidableEq

namespace Pooling

def text : Pooling → String
  | .max => "max"
  | .mean => "mean"

/-- Reads a tag in any case, and the other spellings in use. -/
def ofTag? (tag : String) : Option Pooling :=
  match Text.lowerTag tag with
  | "max" => some .max
  | "mean" | "average" | "avg" => some .mean
  | _ => none

end Pooling

/-- An operation on two values, element by element. -/
inductive BinaryOp where
  | add
  | subtract
  | multiply
deriving DecidableEq

def BinaryOp.text : BinaryOp → String
  | .add => "add"
  | .subtract => "subtract"
  | .multiply => "multiply"

/-- An operation on one value, element by element. -/
inductive UnaryOp where
  | abs
  | exp
  | log
  | sqrt
  | sign
  | sin
  | cos
  | square
deriving DecidableEq

def UnaryOp.text : UnaryOp → String
  | .abs => "abs"
  | .exp => "exp"
  | .log => "log"
  | .sqrt => "sqrt"
  | .sign => "sign"
  | .sin => "sin"
  | .cos => "cos"
  | .square => "square"

/-! ### Primitives -/

/-- An input of a primitive: the plan node that writes it, by its number, and the way it is read. -/
structure Operand where
  source : Nat
  buffer : Buffer
deriving DecidableEq

/-- An operation of the target with all it needs. Constants are in canonical order. -/
structure Primitive where
  kind : PrimitiveKind
  operands : List Operand := []
  output : Buffer
  attributes : List (String × AttrValue) := []
  constants : List (String × Constant) := []

namespace Primitive

/-- An attribute that is an integer, or zero. -/
def integer (p : Primitive) (name : String) : Int64 :=
  match p.attributes.lookup name with
  | some (.integer n) => n
  | _ => 0

/-- An attribute that is a 32-bit number, or zero. -/
def number (p : Primitive) (name : String) : Single :=
  match p.attributes.lookup name with
  | some (.single x) => x
  | _ => ⟨0⟩

end Primitive

/-- A primitive in its plan: its number, counted from one, the logical node it comes from and the
converter that made it. -/
structure PlanNode where
  id : Nat
  group : String
  converter : String
  primitive : Primitive

def PlanNode.name (p : PlanNode) : String := p.primitive.kind.text ++ "(" ++ toString p.id ++ ")"

/-- The whole of a plan node's output, as it was written. -/
def PlanNode.asOperand (p : PlanNode) : Operand := ⟨p.id, p.primitive.output⟩

end NetLowering
