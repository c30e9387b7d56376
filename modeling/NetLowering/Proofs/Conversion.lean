import NetLowering.Proofs.Context

/-! # What converters read and write

A converter that emits a primitive reads inputs of its node as operands and writes a buffer with some
shape and border. Which kind of primitive, which inputs and which buffer is said by `Action.kind?`,
`Action.reads`, `Action.view` and `Action.output`, apart from the conversions themselves;
`Action.convert_yields` shows that each standard action keeps to it, or else leaves the outputs of its
node with the owner of input 0. Scripts may do both and read what they like, but only through their context
(`Action.convert_sound`). -/

namespace NetLowering

/-! ### Announcements -/

/-- The kind of the primitives an action emits, if it emits any. -/
def Action.kind? : Action → Option PrimitiveKind
  | .input => some .input
  | .outputReorder | .inputReorder | .reorder => some .reorder
  | .constant => some .constant
  | .convolution => some .convolution
  | .binaryConvolution => some .binaryConvolution
  | .fullyConnected => some .fullyConnected
  | .bias | .minus => some .bias
  | .scaling => some .scaling
  | .batchNormalization => some .batchNormalization
  | .activation | .fixedActivation _ => some .activation
  | .softmax => some .softmax
  | .pooling | .fixedPooling _ => some .pooling
  | .binary _ => some .binaryOperation
  | .unary _ => some .unaryOperation
  | .splice => some .concatenation
  | .reshape => some .reshape
  | .passthrough => none
  | .script s => s.result.map ScriptedPrimitive.kind

/-- The inputs of a node that an action reads when it emits something, by their index. -/
def Action.reads (a : Action) (n : Node) : List Int :=
  match a with
  | .input | .constant => []
  | .binary _ => [0, 1]
  | .splice => (List.range n.inputs.length).map Int.ofNat
  | .script s => (s.result.map ScriptedPrimitive.operands).getD []
  | _ => [0]

/-- An operand read with the border that the node expects. -/
def Context.padded (c : Context) (o : Operand) : Operand :=
  { o with buffer := { o.buffer with padding := c.inputPadding } }

/-- An operand as an action reads it: windows and matrix products expect the border of their node, and the
others take it as it was written. -/
def Action.view (a : Action) (c : Context) (o : Operand) : Operand :=
  match a with
  | .convolution | .binaryConvolution | .fullyConnected | .pooling | .fixedPooling _ => c.padded o
  | _ => o

/-- The border an action writes when it emits something. -/
def Action.border (a : Action) (c : Context) : Padding :=
  match a with
  | .input => .absent
  | .outputReorder => c.outputPadding
  | .inputReorder => c.node.inputPadding
  | .constant => if c.node.outputShapes.isEmpty then c.outputPadding else c.border
  | _ => c.border

namespace Context

/-- The shape that an input of the model declares. -/
def declaredShape (c : Context) : Except Error Shape :=
  match c.node.outputShapes ++ c.node.inputShapes with
  | [] => fail (.inputWithoutShape c.node.id)
  | declared :: _ => declared.canonical 0

def firstShape (c : Context) : Except Error Shape := do
  let operand ← c.input 0
  .ok operand.buffer.shape

/-- The shape of all inputs stacked. -/
def stackedShape (c : Context) : Except Error Shape := do
  let operands ← c.inputs
  match operands with
  | [] => fail .spliceWithoutInputs
  | first :: _ => stack first.buffer.shape (operands.map fun o => o.buffer.shape)

end Context

/-- The shape an action gives its output when it emits something. -/
def Action.shape (a : Action) (c : Context) : Except Error Shape :=
  match a with
  | .input => c.declaredShape
  | .outputReorder | .inputReorder => c.firstShape
  | .constant =>
      if c.node.outputShapes.isEmpty then Context.constantShape <$> c.weight "value" else c.outputShape
  | .splice => c.stackedShape
  | _ => c.outputShape

/-- Whether an action may leave the outputs of its node with the owner of its input. -/
def Action.mayForward : Action → Bool
  | .splice | .reshape | .passthrough | .script _ => true
  | _ => false

def Action.isScript : Action → Bool
  | .script _ => true
  | _ => false

/-- The operand is what the context gives for an input, though it may be read with another border. -/
def Context.Reads (c : Context) (index : Int) (o : Operand) : Prop :=
  ∃ given, c.input index = .ok given ∧ o.source = given.source

/-- The primitive reads the listed inputs in order, and writes the given border. -/
structure Primitive.Built (c : Context) (reads : List Int) (border : Padding) (p : Primitive) : Prop where
  operands : List.Forall₂ c.Reads reads p.operands
  border : p.output.padding = border

/-- The primitive is of the given kind, its operands are the listed inputs as `view` has them, and its output
has the given shape and border. -/
structure Primitive.Made (c : Context) (kind : PrimitiveKind) (reads : List Int) (view : Operand → Operand)
    (shape : Except Error Shape) (border : Padding) (p : Primitive) : Prop where
  kind : p.kind = kind
  operands : List.Forall₂ (fun index o => ∃ given, c.input index = .ok given ∧ o = view given) reads p.operands
  shape : shape = .ok p.output.shape
  border : p.output.padding = border

/-- The primitive is one that the action announces. -/
def Action.Makes (a : Action) (c : Context) (p : Primitive) : Prop :=
  ∃ kind, a.kind? = some kind ∧ p.Made c kind (a.reads c.node) (a.view c) (a.shape c) (a.border c)

/-- What a standard action comes to: a primitive as announced, or the owner of input 0. A reshape is
only left out if the border is the one it would write. -/
def Action.ComesTo (a : Action) (c : Context) (outcome : Outcome) : Prop :=
  (∃ p, outcome = .ofPrimitive p ∧ p.Built c (a.reads c.node) (a.border c)) ∨
    (a.mayForward = true ∧ ∃ q, outcome = { forward := some q } ∧ c.producer 0 = .ok q ∧
      (a = .reshape → c.previous = none → q.primitive.output.padding = c.border))

/-- The same, with all that is known of the primitive. -/
def Action.Yields (a : Action) (c : Context) (outcome : Outcome) : Prop :=
  (∃ p, outcome = .ofPrimitive p ∧ a.Makes c p) ∨
    (a.mayForward = true ∧ ∃ q, outcome = { forward := some q } ∧ c.producer 0 = .ok q ∧
      (a = .reshape → c.previous = none → q.primitive.output.padding = c.border))

theorem Action.view_source (a : Action) (c : Context) (o : Operand) : (a.view c o).source = o.source := by
  cases a <;> rfl

theorem Action.view_shape (a : Action) (c : Context) (o : Operand) :
    (a.view c o).buffer.shape = o.buffer.shape := by
  cases a <;> rfl

theorem Action.Makes.built {a : Action} {c : Context} {p : Primitive} (h : a.Makes c p) :
    p.Built c (a.reads c.node) (a.border c) := by
  obtain ⟨kind, _, hmade⟩ := h
  refine ⟨hmade.operands.imp fun index o ho => ?_, hmade.border⟩
  obtain ⟨given, hgiven, rfl⟩ := ho
  exact ⟨given, hgiven, a.view_source c given⟩

theorem Action.Yields.comesTo {a : Action} {c : Context} {outcome : Outcome} (h : a.Yields c outcome) :
    a.ComesTo c outcome := by
  rcases h with ⟨p, heq, hp⟩ | hforward
  · exact .inl ⟨p, heq, hp.built⟩
  · exact .inr hforward

/-! ### Primitives -/

namespace Context

variable (c : Context)

theorem input_reads (index : Int) : Ends (c.input index) (c.Reads index) c.Foreseen :=
  (c.input_ends index).self.imp fun o h => ⟨o, h.1, rfl⟩

theorem paddedInput_ends :
    Ends c.paddedInput (fun o => ∃ given, c.input 0 = .ok given ∧ o = c.padded given) c.Foreseen := by
  unfold paddedInput
  exact (c.input_ends 0).self.bind fun given h => Ends.ok ⟨given, h.1, rfl⟩

/-- The buffer a converter writes has the shape of the node, and the border of its place. -/
theorem output_made : Ends c.output (fun b => c.outputShape = .ok b.shape ∧ b.padding = c.border)
    c.Foreseen := by
  unfold output
  exact c.outputShape_ends.self.bind fun shape h => Ends.ok ⟨h.1, rfl⟩

theorem window_ends : Ends c.window (fun _ => True) c.Foreseen := by
  unfold window
  refine (integer_ends c c.node _).bind fun size _ => ?_
  refine (integer_ends c c.node _).bind fun stride _ => ?_
  split <;> exact trivial

theorem convertInput_ends : Ends c.convertInput (Action.input.Makes c) c.Foreseen := by
  unfold convertInput
  split
  · exact trivial
  · rename_i declared rest hdeclared
    refine (shape_ends c _ _).self.bind fun shape hshape => Ends.ok ⟨_, rfl, rfl, .nil, ?_, rfl⟩
    simp only [Action.shape, declaredShape, hdeclared, hshape.1]

theorem convertCopy_ends (padding : Padding) : Ends (c.convertCopy padding)
    (Primitive.Made c .reorder [0] id c.firstShape padding) c.Foreseen := by
  unfold convertCopy
  refine (c.input_ends 0).self.bind fun operand ho => ?_
  refine Ends.ok ⟨rfl, .cons ⟨operand, ho.1, rfl⟩ .nil, ?_, rfl⟩
  rw [firstShape, ho.1]
  rfl

theorem convertConstant_ends : Ends c.convertConstant (Action.constant.Makes c) c.Foreseen := by
  unfold convertConstant
  refine (c.weight_ends _).self.bind fun value hvalue => ?_
  have hrest (output : Buffer) (hshape : Action.constant.shape c = .ok output.shape)
      (hborder : output.padding = Action.constant.border c) :
      Ends (if output.shape.size ≠ value.size then fail (.constantSize value.size output.shape)
        else .ok { kind := .constant, output, constants := [("value", value)] })
        (Action.constant.Makes c) c.Foreseen := by
    split
    · exact trivial
    · exact Ends.ok ⟨_, rfl, rfl, .nil, hshape, hborder⟩
  dsimp only
  split
  · rename_i hempty
    refine hrest _ ?_ (by simp only [Action.border, hempty, if_true])
    simp only [Action.shape, hempty, if_true, hvalue.1]
    rfl
  · rename_i hempty
    refine c.output_made.bind fun output hout => hrest output ?_ ?_
    · simp only [Action.shape, hempty]
      exact hout.1
    · simp only [Action.border, hempty, hout.2]
      rfl

theorem convertConvolution_ends (kind : PrimitiveKind) : Ends (c.convertConvolution kind)
    (Primitive.Made c kind [0] c.padded c.outputShape c.border) c.Foreseen := by
  unfold convertConvolution
  refine c.paddedInput_ends.bind fun operand ho => ?_
  refine c.window_ends.bind fun window _ => ?_
  refine (c.weight_ends _).bind fun weights _ => ?_
  split
  · refine c.output_made.bind fun output hout => ?_
    split
    · exact trivial
    · exact Ends.ok ⟨rfl, .cons ho .nil, hout.1, hout.2⟩
  · exact trivial

theorem convertFullyConnected_ends : Ends c.convertFullyConnected
    (Primitive.Made c .fullyConnected [0] c.padded c.outputShape c.border) c.Foreseen := by
  unfold convertFullyConnected
  refine c.paddedInput_ends.bind fun operand ho => ?_
  refine (c.weight_ends _).bind fun weights _ => ?_
  refine c.output_made.bind fun output hout => ?_
  dsimp only
  split
  · exact trivial
  · exact Ends.ok ⟨rfl, .cons ho .nil, hout.1, hout.2⟩

theorem convertPerChannel_ends (kind : PrimitiveKind) (role : String) : Ends (c.convertPerChannel kind role)
    (Primitive.Made c kind [0] id c.outputShape c.border) c.Foreseen := by
  unfold convertPerChannel
  refine (c.input_ends 0).self.bind fun operand ho => ?_
  refine c.output_made.bind fun output hout => ?_
  refine (c.vector_ends role _).bind fun _ _ => ?_
  exact Ends.ok ⟨rfl, .cons ⟨operand, ho.1, rfl⟩ .nil, hout.1, hout.2⟩

theorem convertMinus_ends : Ends c.convertMinus
    (Primitive.Made c .bias [0] id c.outputShape c.border) c.Foreseen := by
  unfold convertMinus
  refine (c.convertPerChannel_ends .bias "bias").bind fun p hp => ?_
  exact Ends.ok ⟨hp.kind, hp.operands, hp.shape, hp.border⟩

theorem convertBatchNormalization_ends : Ends c.convertBatchNormalization
    (Primitive.Made c .batchNormalization [0] id c.outputShape c.border) c.Foreseen := by
  unfold convertBatchNormalization
  refine (c.convertPerChannel_ends .batchNormalization "mean").bind fun p hp => ?_
  exact (c.vector_ends _ _).bind fun _ _ => Ends.ok ⟨hp.kind, hp.operands, hp.shape, hp.border⟩

theorem convertActivation_ends (a : Activation) : Ends (c.convertActivation a)
    (Primitive.Made c .activation [0] id c.outputShape c.border) c.Foreseen := by
  unfold convertActivation
  refine (c.input_ends 0).self.bind fun operand ho => ?_
  refine c.output_made.bind fun output hout => ?_
  have hoperands : List.Forall₂ (fun index o => ∃ given, c.input index = .ok given ∧ o = id given) [0]
      [operand] := .cons ⟨operand, ho.1, rfl⟩ .nil
  dsimp only
  split
  · have hslope : Ends c.leakySlope (fun _ => True) c.Foreseen := by
      unfold leakySlope
      split
      · exact number_ends c c.node _
      · exact trivial
    exact hslope.bind fun _ _ => Ends.ok ⟨rfl, hoperands, hout.1, hout.2⟩
  · split
    · exact (c.vector_ends _ _).bind fun _ _ => Ends.ok ⟨rfl, hoperands, hout.1, hout.2⟩
    · exact trivial
  · exact Ends.ok ⟨rfl, hoperands, hout.1, hout.2⟩

theorem convertTaggedActivation_ends : Ends c.convertTaggedActivation
    (Primitive.Made c .activation [0] id c.outputShape c.border) c.Foreseen := by
  unfold convertTaggedActivation
  refine (word_ends c c.node _).bind fun tag _ => ?_
  split
  · exact trivial
  · exact c.convertActivation_ends _

theorem convertPlain_ends (kind : PrimitiveKind) (attributes : List (String × AttrValue)) :
    Ends (c.convertPlain kind attributes) (Primitive.Made c kind [0] id c.outputShape c.border)
      c.Foreseen := by
  unfold convertPlain
  refine (c.input_ends 0).self.bind fun operand ho => ?_
  refine c.output_made.bind fun output hout => ?_
  exact Ends.ok ⟨rfl, .cons ⟨operand, ho.1, rfl⟩ .nil, hout.1, hout.2⟩

theorem convertPooling_ends (p : Pooling) : Ends (c.convertPooling p)
    (Primitive.Made c .pooling [0] c.padded c.outputShape c.border) c.Foreseen := by
  unfold convertPooling
  refine c.paddedInput_ends.bind fun operand ho => ?_
  refine c.window_ends.bind fun window _ => ?_
  exact c.output_made.bind fun output hout => Ends.ok ⟨rfl, .cons ho .nil, hout.1, hout.2⟩

theorem convertTaggedPooling_ends : Ends c.convertTaggedPooling
    (Primitive.Made c .pooling [0] c.padded c.outputShape c.border) c.Foreseen := by
  unfold convertTaggedPooling
  refine (word_ends c c.node _).bind fun tag _ => ?_
  split
  · exact trivial
  · exact c.convertPooling_ends _

/-- The operands of a binary operation have the shape of the first. -/
theorem convertBinary_ends (op : BinaryOp) : Ends (c.convertBinary op)
    (fun p => p.Made c .binaryOperation [0, 1] id c.outputShape c.border ∧
      ∀ o ∈ p.operands, c.firstShape = .ok o.buffer.shape) c.Foreseen := by
  unfold convertBinary
  split
  · exact trivial
  · refine (c.input_ends 0).self.bind fun first hfirst => ?_
    refine (c.input_ends 1).self.bind fun second hsecond => ?_
    split
    · exact trivial
    · rename_i hsame
      have hshape : c.firstShape = .ok first.buffer.shape := by
        rw [firstShape, hfirst.1]
        rfl
      refine c.output_made.bind fun output hout => Ends.ok ⟨⟨rfl, ?_, hout.1, hout.2⟩, ?_⟩
      · exact .cons ⟨first, hfirst.1, rfl⟩ (.cons ⟨second, hsecond.1, rfl⟩ .nil)
      · intro o ho
        simp only [List.mem_cons, List.not_mem_nil, or_false] at ho
        rcases ho with rfl | rfl
        · exact hshape
        · exact of_not_not hsame ▸ hshape

theorem stack_ends (first : Shape) (shapes : List Shape) :
    Ends (stack first shapes) (fun _ => True) c.Foreseen := by
  unfold stack
  split <;> exact trivial

theorem convertConcatenation_ends : Ends c.convertConcatenation (Action.splice.Makes c) c.Foreseen := by
  unfold convertConcatenation
  split
  · exact trivial
  · split
    · exact trivial
    · refine c.inputs_ends.self.bind fun operands hos => ?_
      have hreads : List.Forall₂ (fun index o => ∃ given, c.input index = .ok given ∧ o = given)
          (Action.splice.reads c.node) operands := by
        rw [Action.reads, List.forall₂_map_left_iff]
        exact hos.2.imp fun i o hi => ⟨o, hi, rfl⟩
      split
      · exact trivial
      · refine (c.stack_ends _ _).self.bind fun stacked hstacked => ?_
        refine c.output_made.bind fun output hout => ?_
        split
        · exact trivial
        · refine Ends.ok ⟨_, rfl, rfl, hreads, ?_, hout.2⟩
          rw [Action.shape, stackedShape, hos.1]
          exact hstacked.1

theorem convertReorder_ends : Ends c.convertReorder
    (Primitive.Made c .reorder [0] id c.outputShape c.border) c.Foreseen := by
  unfold convertReorder
  refine (c.input_ends 0).self.bind fun operand ho => ?_
  refine c.output_made.bind fun output hout => ?_
  split
  · exact trivial
  · exact Ends.ok ⟨rfl, .cons ⟨operand, ho.1, rfl⟩ .nil, hout.1, hout.2⟩

/-! ### Values left where they are -/

theorem forward_ends : Ends (c.forward 0)
    (fun outcome => ∃ q, outcome = { forward := some q } ∧ c.producer 0 = .ok q) c.Foreseen := by
  unfold forward
  exact (c.producer_ends 0).self.bind fun q hq => Ends.ok ⟨q, rfl, hq.1⟩

theorem convertSplice_ends : Ends c.convertSplice (Action.splice.Yields c) c.Foreseen := by
  unfold convertSplice
  split
  · exact trivial
  · exact c.forward_ends.imp fun outcome ⟨q, heq, hq⟩ => .inr ⟨rfl, q, heq, hq, nofun⟩
  · exact c.convertConcatenation_ends.map fun p hp => .inl ⟨p, rfl, hp⟩

theorem convertReshape_ends : Ends c.convertReshape (Action.reshape.Yields c) c.Foreseen := by
  unfold convertReshape
  refine (c.input_ends 0).self.bind fun operand ho => ?_
  refine c.output_made.bind fun output hout => ?_
  split
  · rename_i hsame
    refine c.forward_ends.imp fun outcome ⟨q, heq, hq⟩ => .inr ⟨rfl, q, heq, hq, fun _ hprev => ?_⟩
    rcases ho.2 with ⟨_, p, hp, _⟩ | ⟨_, p, hp, rfl⟩
    · rw [hprev] at hp; cases hp
    · rw [hq] at hp
      cases hp
      rw [← hout.2, ← hsame]
      rfl
  · split
    · exact trivial
    · refine Ends.ok (.inl ⟨_, rfl, _, rfl, rfl, ?_, hout.1, hout.2⟩)
      exact .cons ⟨operand, ho.1, rfl⟩ .nil

end Context

/-- Every standard action keeps to what it announces. -/
theorem Action.convert_yields (a : Action) (c : Context) (ha : a.isScript = false) :
    Ends (a.convert c).2 (a.Yields c) c.Foreseen := by
  have emits {x : Except Error Primitive} (hx : Ends x (a.Makes c) c.Foreseen) :
      Ends (Outcome.ofPrimitive <$> x) (a.Yields c) c.Foreseen :=
    hx.map fun p hp => .inl ⟨p, rfl, hp⟩
  have made {x : Except Error Primitive} {kind : PrimitiveKind} (hkind : a.kind? = some kind)
      (hx : Ends x (Primitive.Made c kind (a.reads c.node) (a.view c) (a.shape c) (a.border c))
        c.Foreseen) : Ends (Outcome.ofPrimitive <$> x) (a.Yields c) c.Foreseen :=
    emits (hx.imp fun p hp => ⟨kind, hkind, hp⟩)
  cases a with
  | input => exact emits c.convertInput_ends
  | outputReorder => exact made rfl (c.convertCopy_ends _)
  | inputReorder => exact made rfl (c.convertCopy_ends _)
  | constant => exact emits c.convertConstant_ends
  | convolution => exact made rfl (c.convertConvolution_ends _)
  | binaryConvolution => exact made rfl (c.convertConvolution_ends _)
  | fullyConnected => exact made rfl c.convertFullyConnected_ends
  | bias => exact made rfl (c.convertPerChannel_ends _ _)
  | scaling => exact made rfl (c.convertPerChannel_ends _ _)
  | minus => exact made rfl c.convertMinus_ends
  | batchNormalization => exact made rfl c.convertBatchNormalization_ends
  | activation => exact made rfl c.convertTaggedActivation_ends
  | fixedActivation f => exact made rfl (c.convertActivation_ends f)
  | softmax => exact made rfl (c.convertPlain_ends _ _)
  | pooling => exact made rfl c.convertTaggedPooling_ends
  | fixedPooling p => exact made rfl (c.convertPooling_ends p)
  | binary op => exact made rfl ((c.convertBinary_ends op).imp fun p hp => hp.1)
  | unary op => exact made rfl (c.convertPlain_ends _ _)
  | splice => exact c.convertSplice_ends
  | reorder => exact made rfl c.convertReorder_ends
  | reshape => exact c.convertReshape_ends
  | passthrough =>
      exact c.forward_ends.imp fun outcome ⟨q, heq, hq⟩ => .inr ⟨rfl, q, heq, hq, nofun⟩
  | script s => cases ha

theorem Action.convert_ends (a : Action) (c : Context) (ha : a.isScript = false) :
    Ends (a.convert c).2 (a.ComesTo c) c.Foreseen :=
  (a.convert_yields c ha).imp fun _ h => h.comesTo

/-! ### Any converter -/

/-- Whatever is emitted reads its operands through the context, and whatever is left in place is left
with the owner of an input. -/
structure Outcome.Sound (c : Context) (outcome : Outcome) : Prop where
  emit : ∀ p, outcome.emit = some p → ∀ o ∈ p.operands, ∃ index, c.Reads index o
  forward : ∀ q, outcome.forward = some q → ∃ index, c.producer index = .ok q

theorem Context.reads_of_mem {c : Context} {reads : List Int} {operands : List Operand}
    (h : List.Forall₂ c.Reads reads operands) {o : Operand} (ho : o ∈ operands) :
    ∃ index, c.Reads index o := by
  obtain ⟨i, hi, rfl⟩ := List.mem_iff_getElem.mp ho
  have hlen := h.length_eq
  exact ⟨_, h.get (by omega) hi⟩

theorem Action.ComesTo.sound {a : Action} {c : Context} {outcome : Outcome}
    (h : a.ComesTo c outcome) : outcome.Sound c := by
  rcases h with ⟨p, rfl, hp⟩ | ⟨_, q, rfl, hq, _⟩
  · refine ⟨fun p' hp' o ho => ?_, fun q' hq' => ?_⟩
    · cases hp'
      exact Context.reads_of_mem hp.operands ho
    · cases hq'
  · refine ⟨fun p' hp' => ?_, fun q' hq' => ?_⟩
    · cases hp'
    · cases hq'
      exact ⟨0, hq⟩

namespace Context

variable (c : Context)

theorem ask_ends (q : Query) : Ends (c.ask q)
    (fun answer => ∀ p, answer.2 = some p → ∃ index, c.producer index = .ok p) c.Foreseen := by
  have silent (p : PlanNode) (h : (none : Option PlanNode) = some p) :
      ∃ index, c.producer index = .ok p := by cases h
  cases q with
  | input index => exact (c.input_ends index).map fun _ _ => silent
  | inputs => exact c.inputs_ends.map fun _ _ => silent
  | producer index => exact (c.producer_ends index).map fun _ _ => silent
  | output => exact c.output_ends.map fun _ _ => silent
  | outputShape => exact c.outputShape_ends.map fun _ _ => silent
  | inputPadding => exact Ends.ok silent
  | outputPadding => exact Ends.ok silent
  | weight role => exact (c.weight_ends role).map fun _ _ => silent
  | vector role size => exact (c.vector_ends role size).map fun _ _ => silent
  | forward index =>
      refine (c.producer_ends index).self.map fun p hp p' hp' => ?_
      cases hp'
      exact ⟨index, hp.1⟩
  | options => exact Ends.ok silent
  | model => exact Ends.ok silent
  | table id => exact Ends.ok silent

theorem askAll_ends (queries : List Query) (forwarded : Option PlanNode)
    (hf : ∀ p, forwarded = some p → ∃ index, c.producer index = .ok p) :
    Ends (c.askAll queries forwarded).2
      (fun last => ∀ p, last = some p → ∃ index, c.producer index = .ok p) c.Foreseen := by
  induction queries generalizing forwarded with
  | nil => exact Ends.ok hf
  | cons q rest ih =>
      unfold askAll
      have hask := c.ask_ends q
      cases hq : c.ask q with
      | error e =>
          dsimp only
          split
          · exact hask.cause hq
          · exact ih forwarded hf
      | ok answer =>
          refine ih _ fun p hp => ?_
          cases htarget : answer.2 with
          | none => rw [htarget] at hp; exact hf p hp
          | some target => rw [htarget] at hp; exact hask.result hq p (htarget.trans hp)

theorem runScript_ends (s : Script) : Ends (c.runScript s).2 (Outcome.Sound c) c.Foreseen := by
  have hasked := c.askAll_ends s.queries none fun p h => by cases h
  unfold runScript
  split
  · rename_i e he
    exact hasked.cause (by rw [he])
  · rename_i forwarded he
    have hforward := hasked.result (a := forwarded) (by rw [he])
    unfold finishScript
    split
    · exact trivial
    · refine Ends.ok ⟨fun p h => ?_, hforward⟩
      cases h
    · rename_i scripted _ _
      refine Ends.map (P := fun p => ∀ o ∈ p.operands, ∃ index, c.Reads index o) ?_
        fun p hp => ⟨fun p' hp' => by cases hp'; exact hp, hforward⟩
      unfold convertScripted
      refine (Ends.mapM fun index _ => c.input_reads index).bind fun operands hos => ?_
      exact c.output_ends.bind fun output _ => Ends.ok fun o ho => reads_of_mem hos ho

end Context

/-- Every converter, scripts included, is sound and fails for foreseen causes only. -/
theorem Action.convert_sound (a : Action) (c : Context) :
    Ends (a.convert c).2 (Outcome.Sound c) c.Foreseen := by
  cases hs : a.isScript with
  | false => exact (a.convert_ends c hs).imp fun _ h => h.sound
  | true =>
      cases a with
      | script s => exact c.runScript_ends s
      | _ => cases hs

end NetLowering
