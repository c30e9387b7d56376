import NetLowering.Primitive

/-! # Converters

A converter turns one logical node, or a part of it, into at most one primitive. Converters are
data: an `Action` names what to build, and the fields of `Converter` say when. A `Block` lists the
converters of one operation kind in the order they run. What an action builds is in
`NetLowering.Converter.Conversion`.
-/

namespace NetLowering

/-! ### Scripts -/

/-- A question a converter can ask about the node at hand. -/
inductive Query where
  | input (index : Int)
  | inputs
  | producer (index : Int)
  | output
  | outputShape
  | inputPadding
  | outputPadding
  | weight (role : String)
  | vector (role : String) (size : Int64)
  | forward (index : Int)
  | options
  | model
  | table (id : String)

/-- The primitive a script builds: its operands are inputs of the node by their index. -/
structure ScriptedPrimitive where
  kind : PrimitiveKind
  operands : List Int
  attributes : List (String × AttrValue)

/-- A converter written as a list of questions, whose answers are recorded, and an end: a failure, a
primitive or nothing. -/
structure Script where
  queries : List Query
  failure : Option String
  result : Option ScriptedPrimitive

/-! ### Converters -/

/-- What a converter builds. -/
inductive Action where
  | input
  | outputReorder
  | inputReorder
  | constant
  | convolution
  | binaryConvolution
  | fullyConnected
  | bias
  | scaling
  | minus
  | batchNormalization
  | activation
  | fixedActivation (a : Activation)
  | softmax
  | pooling
  | fixedPooling (p : Pooling)
  | binary (op : BinaryOp)
  | unary (op : UnaryOp)
  | splice
  | reorder
  | reshape
  | passthrough
  | script (s : Script)

/-- A condition for a converter to run, next to having what it requires. -/
inductive Condition where
  | constant (holds : Bool)
  | outputPadded
  | inputPaddedOtherwise

/-- One element of a block. It requires the weights and attributes it names; without them an
optional converter is left out, and any other fails. An adapter moves data at the edge of a block,
and does not count as its first or last element. -/
structure Converter where
  name : String
  weights : List String := []
  attributes : List String := []
  optional : Bool := false
  adapter : Bool := false
  condition : Option Condition := none
  action : Action

/-- The converters of one operation kind, in the order they run. -/
abbrev Block := List Converter

namespace Converter

def lackingWeight? (c : Converter) (n : Node) : Option String :=
  c.weights.find? fun role => !n.hasWeight role

def lackingAttribute? (c : Converter) (n : Node) : Option String :=
  c.attributes.find? fun name => !n.hasAttribute name

/-- Whether a node has all the converter requires; for a converter that is not optional it has to.
-/
def canConvert (c : Converter) (n : Node) : Except Error Bool :=
  match c.lackingWeight? n, c.lackingAttribute? n with
  | some role, _ => if c.optional then .ok false else fail (.converterNeedsWeight c.name role)
  | none, some name => if c.optional then .ok false else fail (.converterNeedsAttribute c.name name)
  | none, none => .ok true

/-- The converter as an optional element of a larger block. -/
def asOptional (c : Converter) : Converter := { c with name := "Optional" ++ c.name, optional := true }

end Converter

end NetLowering
