import NetLowering.Attribute
import NetLowering.Shape

/-! # Failures

A failure is a `Cause`, what went wrong, under a list of `Scope`s, where it went wrong, outermost
first. Callers tell failures apart by `Error.class?`; people read `Error.message`.
-/

namespace NetLowering

/-- The classes of failure a caller can act on. -/
inductive ErrorClass where
  | duplicateId
  | notFound
  | unsupportedLayout
  | missingRequirement
  | unsupportedOperation
  | unschedulableNode
  | ambiguousPadding
  | emptyGraph
deriving DecidableEq

/-- The name of a class, which ends the message of its failures. -/
def ErrorClass.text : ErrorClass → String
  | .duplicateId => "duplicate id"
  | .notFound => "not found"
  | .unsupportedLayout => "unsupported layout"
  | .missingRequirement => "missing requirement"
  | .unsupportedOperation => "unsupported operation"
  | .unschedulableNode => "unschedulable node"
  | .ambiguousPadding => "ambiguous padding"
  | .emptyGraph => "empty graph"

/-- What went wrong. -/
inductive Cause where
  -- names
  | unknownLayout (tag : String)
  | unknownKind (name : String)
  | unknownScheme (name : String)
  -- declared shapes
  | shapeRank (dims : List Int64) (rank : Nat) (layout : Layout)
  | shapeLayout (layout : Layout)
  | shapeNotPositive (dims : List Int64)
  | negativePadding (size : Int64)
  -- tensors
  | duplicateTensor (id : String)
  | unsupportedData (typeName : String)
  | tensorRank (layout : Layout) (dims : List Int64)
  | tensorNotPositive (dims : List Int64)
  | tensorSize (dims : List Int64) (length : Nat)
  | tensorNotFound (id : String)
  | tensorReadAs (id : String) (dims : List Int64) (layout : Layout)
  -- nodes
  | unnamedNode
  | duplicateNode (id : String)
  | negativeInputPadding (node : String) (size : Int64)
  | duplicateOutput (output node other : String)
  | nodeNotFound (id : String)
  | weightNotFound (node role : String)
  | attributeNotFound (node name : String)
  | notInteger (node name : String) (value : AttrValue)
  | notNumber (node name : String) (value : AttrValue)
  | notWord (node name : String) (value : AttrValue)
  -- planning
  | ambiguousPadding (first second : Padding)
  | paddingLoop (node : String)
  | neverProduced (inputs : List String)
  | nothingScheduled (run : String) (total : Nat)
  -- converting
  | noConverter (kind : OpKind)
  | converterNeedsWeight (converter role : String)
  | converterNeedsAttribute (converter name : String)
  | noSuchInput (node : String) (count : Nat) (index : Int)
  | inputNotOwned (input : String)
  | noOutputShape (node : String)
  | weightLength (role node : String) (size expected : Int64)
  | inputWithoutShape (node : String)
  | constantSize (size : Int64) (shape : Shape)
  | invalidWindow (size stride : Int64)
  | convolutionRank (dims : List Int64)
  | filterCount (filters : Int64) (shape : Shape)
  | weightCount (size rows columns : Int64)
  | preluWithoutSlope
  | unknownActivation (tag : String)
  | unknownPooling (tag : String)
  | binaryInputs (operation : String) (count : Nat)
  | binaryShapes (operation : String) (first second : Shape)
  | spliceWithoutInputs
  | spliceWithoutAxis (count : Nat)
  | spliceAxis (axis : String)
  | spliceExtents (first other : Shape)
  | spliceShape (declared stacked : Shape)
  | reorderSize (source target : Shape)
  | reshapeSize (source target : Shape)
  | nothingProduced
  -- documents
  | valuesAndFill
  | dimsNotPositive (dims : List Int64)
  | unknownDtype (name : String)
  -- reported by a caller's own code
  | reported (text : String)
  -- no result at all
  | impossibleLength (length : Int64)
  | outsideData

/-- The attribute that names the axis of a splice. -/
def spliceAxisAttribute : String := "dimension_to_stack"

namespace Cause

/-- The class of a cause, if it has one. -/
def class? : Cause → Option ErrorClass
  | .unknownLayout _ | .shapeRank _ _ _ | .shapeLayout _ | .shapeNotPositive _ | .tensorRank _ _
  | .tensorNotPositive _ | .tensorReadAs _ _ _ | .convolutionRank _ => some .unsupportedLayout
  | .duplicateTensor _ | .duplicateNode _ | .duplicateOutput _ _ _ => some .duplicateId
  | .tensorNotFound _ | .nodeNotFound _ | .weightNotFound _ _ | .attributeNotFound _ _
  | .inputNotOwned _ => some .notFound
  | .ambiguousPadding _ _ => some .ambiguousPadding
  | .paddingLoop _ | .neverProduced _ => some .unschedulableNode
  | .nothingScheduled _ _ => some .emptyGraph
  | .noConverter _ => some .unsupportedOperation
  | .converterNeedsWeight _ _ | .converterNeedsAttribute _ _ | .noSuchInput _ _ _ | .noOutputShape _
  | .inputWithoutShape _ | .invalidWindow _ _ | .preluWithoutSlope | .unknownActivation _
  | .unknownPooling _ | .binaryInputs _ _ | .spliceWithoutInputs | .spliceWithoutAxis _
  | .spliceAxis _ => some .missingRequirement
  | _ => none

/-- Whether the computation cannot continue, so that not even an error is returned: a buffer of an
impossible length was asked for, or an element outside the data. -/
def isAbort : Cause → Bool
  | .impossibleLength _ | .outsideData => true
  | _ => false

/-- An attribute that is not what was asked for. -/
def notA (node name : String) (value : AttrValue) (wanted : String) : String :=
  "node " ++ Text.quote node ++ " attribute " ++ Text.quote name ++ " is " ++ value.typeName ++
    "(" ++ value.text ++ "), not " ++ wanted

/-- The dimensions of a stored tensor; a scalar has none to show. -/
def storedShape (dims : List Int64) : String :=
  "(Float32)" ++ (if dims.isEmpty then "" else Text.integers dims)

/-- The wording of a cause, without its class. -/
def detail : Cause → String
  | .unknownLayout tag => "unknown layout tag " ++ Text.quote tag
  | .unknownKind name => "unknown operation kind " ++ Text.quote name
  | .unknownScheme name => "unknown padding scheme " ++ Text.quote name
  | .shapeRank dims rank layout =>
      "shape " ++ Text.integers dims ++ " is not rank " ++ toString rank ++ " for layout " ++ layout.text
  | .shapeLayout layout => "shape layout " ++ layout.text
  | .shapeNotPositive dims => "shape " ++ Text.integers dims ++ " has non-positive dimensions"
  | .negativePadding size => "negative padding " ++ toString size
  | .duplicateTensor id => "tensor " ++ Text.quote id
  | .unsupportedData typeName =>
      "unsupported flat data type " ++ typeName ++
        ", expected []float32, []float64 or []float16.Float16"
  | .tensorRank layout dims => "layout " ++ layout.text ++ " with dimensions " ++ Text.integers dims
  | .tensorNotPositive dims => "dimensions " ++ Text.integers dims ++ " must be positive"
  | .tensorSize dims length =>
      "shape " ++ storedShape dims ++ " has size " ++ toString (extentProduct dims) ++
        ", but flat data has length " ++ toString length
  | .tensorNotFound id => "tensor " ++ Text.quote id
  | .tensorReadAs id dims layout =>
      "tensor " ++ Text.quote id ++ " with dimensions " ++ Text.integers dims ++ " read as " ++ layout.text
  | .unnamedNode => "AddNode requires a node with a non-empty id"
  | .duplicateNode id => "node " ++ Text.quote id
  | .negativeInputPadding node size =>
      "node " ++ Text.quote node ++ " has negative input padding " ++ toString size
  | .duplicateOutput output node other =>
      "output " ++ Text.quote output ++ " of node " ++ Text.quote node ++
        " is already produced by node " ++ Text.quote other
  | .nodeNotFound id => "node " ++ Text.quote id
  | .weightNotFound node role => "node " ++ Text.quote node ++ " has no weight " ++ Text.quote role
  | .attributeNotFound node name => "node " ++ Text.quote node ++ " has no attribute " ++ Text.quote name
  | .notInteger node name value => notA node name value "an integer"
  | .notNumber node name value => notA node name value "a number"
  | .notWord node name value => notA node name value "a string"
  | .ambiguousPadding first second => "consumers require both " ++ first.text ++ " and " ++ second.text
  | .paddingLoop node =>
      "padding requirement of " ++ Text.quote node ++ " loops back through transparent nodes"
  | .neverProduced inputs => "inputs " ++ Text.quoteAll inputs ++ " are never produced"
  | .nothingScheduled run total =>
      "[" ++ run ++ "] no node of the " ++ toString total ++ " in the model can be scheduled"
  | .noConverter kind => "no converter registered for " ++ kind.text
  | .converterNeedsWeight converter role =>
      "converter " ++ converter ++ " requires weight " ++ Text.quote role
  | .converterNeedsAttribute converter name =>
      "converter " ++ converter ++ " requires attribute " ++ Text.quote name
  | .noSuchInput node count index =>
      "node " ++ Text.quote node ++ " has " ++ toString count ++ " inputs, input #" ++ toString index ++
        " requested"
  | .inputNotOwned input => "no physical node owns input " ++ Text.quote input
  | .noOutputShape node => "node " ++ Text.quote node ++ " declares no output shape"
  | .weightLength role node size expected =>
      "weight " ++ Text.quote role ++ " of node " ++ Text.quote node ++ " has " ++ toString size ++
        " elements, expected " ++ toString expected
  | .inputWithoutShape node => "input " ++ Text.quote node ++ " declares no shape"
  | .constantSize size shape =>
      "constant has " ++ toString size ++ " elements, but the output shape " ++ shape.text ++ " has " ++
        toString shape.size
  | .invalidWindow size stride => "invalid size " ++ toString size ++ " or stride " ++ toString stride
  | .convolutionRank dims =>
      "convolution weights must be rank 4, got dimensions " ++ Text.integers dims
  | .filterCount filters shape =>
      "weights have " ++ toString filters ++ " filters, but the output shape " ++ shape.text ++ " has " ++
        toString shape.channels ++ " channels"
  | .weightCount size rows columns =>
      "weights have " ++ toString size ++ " elements, expected " ++ toString rows ++ " outputs x " ++
        toString columns ++ " inputs"
  | .preluWithoutSlope => "prelu activation requires weight " ++ Text.quote "alpha"
  | .unknownActivation tag => "unknown activation " ++ Text.quote tag
  | .unknownPooling tag => "unknown pooling type " ++ Text.quote tag
  | .binaryInputs operation count => operation ++ " requires 2 inputs, got " ++ toString count
  | .binaryShapes operation first second =>
      operation ++ " of shapes " ++ first.text ++ " and " ++ second.text
  | .spliceWithoutInputs => "splice without inputs"
  | .spliceWithoutAxis count =>
      "splice of " ++ toString count ++ " inputs requires attribute " ++ Text.quote spliceAxisAttribute
  | .spliceAxis axis =>
      "splice can only stack along channel, got " ++ spliceAxisAttribute ++ "=" ++ Text.quote axis
  | .spliceExtents first other =>
      "splice of inputs with different spatial shapes " ++ first.text ++ " and " ++ other.text
  | .spliceShape declared stacked =>
      "splice declares output shape " ++ declared.text ++ ", but its inputs stack to " ++ stacked.text
  | .reorderSize source target =>
      "reorder from " ++ source.text ++ " to " ++ target.text ++ " changes the number of elements"
  | .reshapeSize source target =>
      "reshape from " ++ source.text ++ " to " ++ target.text ++ " changes the number of elements"
  | .nothingProduced => "no converter produced or forwarded an output"
  | .valuesAndFill => "tensor sets both values and fill"
  | .dimsNotPositive dims => "dimensions " ++ Text.integers dims ++ " must be positive"
  | .unknownDtype name => "unsupported tensor dtype " ++ Text.quote name
  | .reported text => text
  | .impossibleLength length => "impossible length " ++ toString length
  | .outsideData => "element outside the data"

/-- The wording of a cause, ended by its class. -/
def message (c : Cause) : String :=
  match c.class? with
  | some cls => c.detail ++ ": " ++ cls.text
  | none => c.detail

end Cause

/-- Where something went wrong. -/
inductive Scope where
  | tensor (id : String)
  | weight (role node : String)
  | node (id : String) (kind : OpKind)
  | converter (name : String)
  | adding (run physical group : String)
  | finishing (run : String)
  | writingMapping
  | documentTensor (index : Nat) (id : String)
  | documentNode (index : Nat) (id : String)
  | insertion (index : Nat)
  | weightRole (role : String)
  | inputShapes
  | outputShapes
  | shape (index : Nat)

def Scope.text : Scope → String
  | .tensor id => "tensor " ++ Text.quote id
  | .weight role owner => "weight " ++ Text.quote role ++ " of node " ++ Text.quote owner
  | .node id kind => "node " ++ Text.quote id ++ " (" ++ kind.text ++ ")"
  | .converter name => "converter " ++ name
  | .adding run physical group => "[" ++ run ++ "] adding " ++ physical ++ " of node " ++ Text.quote group
  | .finishing run => "[" ++ run ++ "] finishing target graph"
  | .writingMapping => "writing mapping"
  | .documentTensor index id => "tensor #" ++ toString index ++ " (" ++ Text.quote id ++ ")"
  | .documentNode index id => "node #" ++ toString index ++ " (" ++ Text.quote id ++ ")"
  | .insertion index => "node #" ++ toString index
  | .weightRole role => "weight " ++ Text.quote role
  | .inputShapes => "input shapes"
  | .outputShapes => "output shapes"
  | .shape index => "shape #" ++ toString index

/-- A failure. -/
structure Error where
  scopes : List Scope
  cause : Cause

namespace Error

/-- A cause outside any scope. -/
def of (cause : Cause) : Error := ⟨[], cause⟩

instance : Coe Cause Error := ⟨of⟩

/-- The failure seen from a wider scope. -/
def within (e : Error) (scope : Scope) : Error := ⟨scope :: e.scopes, e.cause⟩

def class? (e : Error) : Option ErrorClass := e.cause.class?

/-- Whether there is no result at all. -/
def isAbort (e : Error) : Bool := e.cause.isAbort

/-- The logical node a failure is about. -/
def node? (e : Error) : Option (String × OpKind) :=
  e.scopes.findSome? fun
    | .node id kind => some (id, kind)
    | _ => none

/-- The wording of a failure, from the widest scope in. -/
def message (e : Error) : String :=
  String.join (e.scopes.map fun scope => scope.text ++ ": ") ++ e.cause.message

end Error

/-- Puts the failure of a computation in a wider scope. -/
def inScope {α : Type} (scope : Scope) : Except Error α → Except Error α
  | .ok a => .ok a
  | .error e => .error (e.within scope)

def fail {α : Type} (cause : Cause) : Except Error α := .error (.of cause)

end NetLowering
