import Mathlib
import NetLowering.Number.Interchange
import NetLowering.Proofs.PositiveShapes

/-! # Constants of a plan

What constants a primitive carries follows from its kind (`Primitive.roles`), and so do their extents
(`Primitive.Fits`): vectors have an element for each channel of the output, convolutions a filter for each, matrix
products a row for each element of the output and a column for each of the input, and a constant value as many
elements as its output. Whatever way a constant takes from its tensor to the primitive, its values stay as many
as its extents describe, counted as machine integers (`Constant.Filled`), and they stay those of the node's weight
(`Primitive.Draws`): a scalar is repeated for each channel, and only a node that subtracts negates them.
`plan_constants_furnished` shows all this of the primitives of every plan. -/

namespace NetLowering

/-- The values of a constant are as many as its extents describe, both counted as machine integers. -/
def Constant.Filled (a : Constant) : Prop := Int64.ofNat a.data.size = a.size

/-- A weight of a node spread over channels: the one value of a scalar is repeated for each of them, whatever layout
the node reads it in, and the values of any other weight are taken in canonical order. -/
def Model.Spreads (m : Model) (n : Node) (role : String) (channels : Int64) (values : Array Single) : Prop :=
  ∃ t, m.weightTensor n role = .ok t ∧
    if t.dims = [] then ∃ x, t.data[0]? = some x ∧ values = Array.replicate channels.toNatClampNeg x
    else ∃ w, m.canonicalWeight n role = .ok w ∧ values = w.data

namespace Primitive

/-- The activation that a primitive names, if it names any. -/
def activation? (p : Primitive) : Option String :=
  match p.attributes.lookup "activation" with
  | some (.word tag) => some tag
  | _ => none

/-- The names of the constants that a primitive carries. -/
def roles (p : Primitive) : List String :=
  match p.kind with
  | .constant => ["value"]
  | .convolution | .binaryConvolution | .fullyConnected => ["weights"]
  | .bias => ["bias"]
  | .scaling => ["scale"]
  | .batchNormalization => ["mean", "variance"]
  | .activation => if p.activation? = some Activation.prelu.text then ["alpha"] else []
  | _ => []

/-- The extents of a constant are those that the primitive needs. -/
def Fits (p : Primitive) (a : Constant) : Prop :=
  match p.kind with
  | .constant => a.size = p.output.shape.size
  | .convolution | .binaryConvolution =>
      ∃ rows columns depth, a.dims = [p.output.shape.channels, rows, columns, depth]
  | .fullyConnected => ∃ o, p.operands = [o] ∧ a.dims = [p.output.shape.size, o.buffer.shape.size]
  | _ => a.dims = [p.output.shape.channels]

/-- The values that a weight of a node gives to a primitive. -/
def Draws (p : Primitive) (m : Model) (n : Node) (role : String) (values : Array Single) : Prop :=
  match p.kind with
  | .constant | .convolution | .binaryConvolution | .fullyConnected =>
      ∃ w, m.canonicalWeight n role = .ok w ∧ values = w.data
  | _ => m.Spreads n role p.output.shape.channels values

/-- The primitive has the constants it needs, each with the extents it needs and all its values, which are those
of the node's weight of that name, negated if the node subtracts. -/
structure Furnished (p : Primitive) (m : Model) (n : Node) : Prop where
  roles : p.constants.map Prod.fst = p.roles
  fits : ∀ entry ∈ p.constants, p.Fits entry.2
  filled : ∀ entry ∈ p.constants, entry.2.Filled
  drawn : ∀ entry ∈ p.constants, ∃ values, p.Draws m n entry.1 values ∧
    entry.2.data = if n.kind = .minus then values.map Single.neg else values

section furnished
variable {p : Primitive} {m : Model} {n : Node}

theorem furnished_of_bare (hconstants : p.constants = []) (hroles : p.roles = []) : p.Furnished m n := by
  refine ⟨by rw [hconstants, hroles]; rfl, ?_, ?_, ?_⟩ <;> rw [hconstants] <;> exact List.forall_mem_nil _

theorem furnished_of_single {role : String} {a : Constant} (hkind : n.kind ≠ .minus)
    (hconstants : p.constants = [(role, a)]) (hroles : p.roles = [role]) (hfits : p.Fits a)
    (hfilled : a.Filled) (hdraws : p.Draws m n role a.data) : p.Furnished m n := by
  refine ⟨by rw [hconstants, hroles]; rfl, ?_, ?_, ?_⟩ <;> rw [hconstants]
  · exact List.forall_mem_singleton.mpr hfits
  · exact List.forall_mem_singleton.mpr hfilled
  · exact List.forall_mem_singleton.mpr ⟨a.data, hdraws, (if_neg hkind).symm⟩

end furnished

end Primitive

/-! ### Weights -/

theorem extentProduct_singleton (d : Int64) : extentProduct [d] = d := Int64.one_mul d

theorem extentProduct_pair (d d' : Int64) : extentProduct [d, d'] = d * d' :=
  congrArg (· * d') (Int64.one_mul d)

theorem Tensor.Checked.filled {t : Tensor} (h : t.Checked) {layout : Layout} {a : Constant}
    (ha : t.canonicalAs layout = .ok a) : a.Filled := by
  have hsize : a.data.size = t.data.size := by
    unfold Tensor.canonicalAs at ha
    split at ha
    · cases ha
    · split at ha
      · cases ha
        rfl
      · split at ha
        · cases ha
        · rename_i hmoved
          cases ha
          exact size_of_transpose hmoved
  rw [Constant.Filled, h.size_canonicalAs ha, hsize, h.ofNat_size]

theorem Tensor.Checked.exists_value {t : Tensor} (h : t.Checked) (hscalar : t.dims = []) :
    ∃ x, t.data[0]? = some x := by
  have hpos : 0 < t.data.size := by
    refine Nat.pos_of_ne_zero fun hzero => ?_
    have hsize := h.size
    rw [hscalar, hzero] at hsize
    exact absurd hsize (by decide)
  exact ⟨_, Array.getElem?_eq_getElem hpos⟩

namespace Context

/-- What a converter furnishes from the node and the model at hand. -/
abbrev Furnishes (c : Context) (p : Primitive) : Prop := p.Furnished c.model c.node

variable {c : Context} (hc : ∀ t ∈ c.model.tensors, t.Checked)
include hc

theorem weight_filled (role : String) : Ends (c.weight role)
    (fun a => c.model.canonicalWeight c.node role = .ok a ∧ a.Filled) c.Foreseen := by
  refine (c.weight_ends role).self.imp fun a ha => ⟨ha.1, ?_⟩
  obtain ⟨t, ht, hread⟩ := Model.canonicalWeight_eq_ok ha.1
  exact (hc t (Model.mem_of_weightTensor ht)).filled hread

/-- A vector has the length it was asked for and the values of the weight, also if it is a scalar repeated. -/
theorem vector_filled (role : String) (size : Int64) :
    Ends (c.vector role size) (fun a => a.dims = [size] ∧ a.Filled ∧ c.model.Spreads c.node role size a.data)
      c.Foreseen := by
  unfold vector
  refine (weightTensor_ends c c.model c.node role).self.bind fun t ht => ?_
  split
  · rename_i hscalar
    refine (tensorVector_ends c t size).self.bind fun data hdata => Ends.ok ?_
    have hfill := hdata.1
    rw [Tensor.vector, if_pos hscalar, fillBuffer_eq_ok_iff] at hfill
    obtain ⟨hnonneg, _, rfl⟩ := hfill
    rw [List.isEmpty_iff] at hscalar
    obtain ⟨x, hx⟩ := (hc t (Model.mem_of_weightTensor ht.1)).exists_value hscalar
    refine ⟨rfl, ?_, t, ht.1, ?_⟩
    · rw [Constant.Filled, Array.size_replicate, Int64.ofNat_toNatClampNeg size hnonneg]
      exact (extentProduct_singleton size).symm
    · rw [if_pos hscalar]
      exact ⟨x, hx, by rw [Array.getD_eq_getD_getElem?, hx, Option.getD_some]⟩
  · rename_i hvector
    refine (weight_filled hc role).bind fun a ha => ?_
    split
    · exact trivial
    · rename_i hsize
      refine Ends.ok ⟨rfl, ?_, t, ht.1, ?_⟩
      · rw [Constant.Filled, ha.2, of_not_not hsize]
        exact (extentProduct_singleton size).symm
      · rw [if_neg (mt List.isEmpty_iff.mpr hvector)]
        exact ⟨a, ha.1, rfl⟩

/-! ### Converters -/

section unsigned
variable (hkind : c.node.kind ≠ .minus)
include hkind

theorem convertConstant_furnished : Ends c.convertConstant c.Furnishes c.Foreseen := by
  unfold convertConstant
  refine (weight_filled hc _).bind fun value hvalue => ?_
  have hrest (output : Buffer) :
      Ends (if output.shape.size ≠ value.size then fail (.constantSize value.size output.shape)
        else .ok { kind := .constant, output, constants := [("value", value)] })
        c.Furnishes c.Foreseen := by
    split
    · exact trivial
    · rename_i hsize
      exact Ends.ok (Primitive.furnished_of_single hkind rfl rfl (of_not_not hsize).symm hvalue.2
        ⟨value, hvalue.1, rfl⟩)
  dsimp only
  split
  · exact hrest _
  · exact c.output_ends.bind fun output _ => hrest output

theorem convertConvolution_furnished {kind : PrimitiveKind}
    (hconvolution : kind = .convolution ∨ kind = .binaryConvolution) :
    Ends (c.convertConvolution kind) c.Furnishes c.Foreseen := by
  unfold convertConvolution
  refine c.paddedInput_ends.bind fun operand _ => ?_
  refine c.window_ends.bind fun window _ => ?_
  refine (weight_filled hc _).bind fun weights hweights => ?_
  split
  · rename_i filters rows columns depth hdims
    refine c.output_ends.bind fun output _ => ?_
    split
    · exact trivial
    · rename_i hfilters
      have hextents : weights.dims = [output.shape.channels, rows, columns, depth] := by
        rw [hdims, of_not_not hfilters]
      refine Ends.ok ?_
      rcases hconvolution with rfl | rfl <;>
        exact Primitive.furnished_of_single hkind rfl rfl ⟨rows, columns, depth, hextents⟩ hweights.2
          ⟨weights, hweights.1, rfl⟩
  · exact trivial

theorem convertFullyConnected_furnished : Ends c.convertFullyConnected c.Furnishes c.Foreseen := by
  unfold convertFullyConnected
  refine c.paddedInput_ends.bind fun operand _ => ?_
  refine (weight_filled hc _).bind fun weights hweights => ?_
  refine c.output_ends.bind fun output _ => ?_
  dsimp only
  split
  · exact trivial
  · rename_i hsize
    refine Ends.ok (Primitive.furnished_of_single hkind rfl rfl ⟨operand, rfl, rfl⟩ ?_ ⟨weights, hweights.1, rfl⟩)
    exact hweights.2.trans ((of_not_not hsize).trans (extentProduct_pair _ _).symm)

end unsigned

/-- An operation with a number for each channel has the vector it asks for, and no other constant. -/
theorem convertPerChannel_constants (kind : PrimitiveKind) (role : String) :
    Ends (c.convertPerChannel kind role) (fun p => p.kind = kind ∧ ∃ a, p.constants = [(role, a)] ∧
      a.dims = [p.output.shape.channels] ∧ a.Filled ∧
      c.model.Spreads c.node role p.output.shape.channels a.data) c.Foreseen := by
  unfold convertPerChannel
  refine (c.input_ends 0).bind fun operand _ => ?_
  refine c.output_ends.bind fun output _ => ?_
  exact (vector_filled hc role _).bind fun a ha => Ends.ok ⟨rfl, a, rfl, ha⟩

theorem convertPerChannel_furnished (hkind : c.node.kind ≠ .minus) {kind : PrimitiveKind} {role : String}
    (hrole : kind = .bias ∧ role = "bias" ∨ kind = .scaling ∧ role = "scale") :
    Ends (c.convertPerChannel kind role) c.Furnishes c.Foreseen := by
  refine (convertPerChannel_constants hc kind role).imp fun p hp => ?_
  obtain ⟨hp, a, hconstants, hdims, hfilled, hspreads⟩ := hp
  rcases hrole with ⟨rfl, rfl⟩ | ⟨rfl, rfl⟩ <;>
    exact Primitive.furnished_of_single hkind hconstants (by rw [Primitive.roles, hp])
      (by rwa [Primitive.Fits, hp]) hfilled (by rwa [Primitive.Draws, hp])

/-- The negated values are as many as those that were given. -/
theorem convertMinus_furnished (hkind : c.node.kind = .minus) : Ends c.convertMinus c.Furnishes c.Foreseen := by
  unfold convertMinus
  refine (convertPerChannel_constants hc .bias "bias").bind fun p hp => Ends.ok ?_
  obtain ⟨hbias, a, hconstants, hdims, hfilled, hspreads⟩ := hp
  have hnegated : p.constants.map (fun entry =>
      (entry.1, Constant.mk entry.2.dims (entry.2.data.map Single.neg))) =
      [("bias", ⟨a.dims, a.data.map Single.neg⟩)] := by
    rw [hconstants]
    rfl
  refine ⟨?_, ?_, ?_, ?_⟩ <;> rw [hnegated]
  · rw [Primitive.roles, hbias]
    rfl
  · refine List.forall_mem_singleton.mpr ?_
    rwa [Primitive.Fits, hbias]
  · refine List.forall_mem_singleton.mpr ?_
    rw [Constant.Filled, Array.size_map]
    exact hfilled
  · refine List.forall_mem_singleton.mpr ⟨a.data, ?_, (if_pos hkind).symm⟩
    rwa [Primitive.Draws, hbias]

theorem convertBatchNormalization_furnished (hkind : c.node.kind ≠ .minus) :
    Ends c.convertBatchNormalization c.Furnishes c.Foreseen := by
  unfold convertBatchNormalization
  refine (convertPerChannel_constants hc .batchNormalization "mean").bind fun p hp => ?_
  obtain ⟨hnormalization, mean, hconstants, hmean, hfilled, hspreads⟩ := hp
  refine (vector_filled hc "variance" _).bind fun variance hvariance => Ends.ok ⟨?_, ?_, ?_, ?_⟩ <;> rw [hconstants]
  · rw [Primitive.roles, hnormalization]
    rfl
  · refine List.forall_mem_cons.mpr ⟨?_, List.forall_mem_singleton.mpr ?_⟩ <;>
      rw [Primitive.Fits, hnormalization]
    · exact hmean
    · exact hvariance.1
  · exact List.forall_mem_cons.mpr ⟨hfilled, List.forall_mem_singleton.mpr hvariance.2.1⟩
  · refine List.forall_mem_cons.mpr ⟨⟨mean.data, ?_, (if_neg hkind).symm⟩,
      List.forall_mem_singleton.mpr ⟨variance.data, ?_, (if_neg hkind).symm⟩⟩ <;>
      rw [Primitive.Draws, hnormalization]
    · exact hspreads
    · exact hvariance.2.2

/-- Only a rectifier with a slope for each channel has a constant. -/
theorem convertActivation_furnished (hkind : c.node.kind ≠ .minus) (a : Activation) :
    Ends (c.convertActivation a) c.Furnishes c.Foreseen := by
  unfold convertActivation
  refine (c.input_ends 0).bind fun operand _ => ?_
  refine c.output_ends.bind fun output _ => ?_
  dsimp only
  split
  · have hslope : Ends c.leakySlope (fun _ => True) c.Foreseen := by
      unfold leakySlope
      split
      · exact number_ends c c.node _
      · exact trivial
    exact hslope.bind fun _ _ => Ends.ok (Primitive.furnished_of_bare rfl rfl)
  · split
    · refine (vector_filled hc "alpha" _).bind fun slopes hslopes => Ends.ok ?_
      exact Primitive.furnished_of_single hkind rfl rfl hslopes.1 hslopes.2.1 hslopes.2.2
    · exact trivial
  · rename_i hleaky hprelu
    refine Ends.ok (Primitive.furnished_of_bare rfl ?_)
    cases a with
    | leakyRelu => exact absurd rfl hleaky
    | prelu => exact absurd rfl hprelu
    | _ => rfl

theorem convertTaggedActivation_furnished (hkind : c.node.kind ≠ .minus) :
    Ends c.convertTaggedActivation c.Furnishes c.Foreseen := by
  unfold convertTaggedActivation
  refine (word_ends c c.node _).bind fun tag _ => ?_
  split
  · exact trivial
  · exact convertActivation_furnished hc hkind _

end Context

/-! ### Primitives without constants -/

namespace Context

variable (c : Context)

theorem convertInput_bare : Ends c.convertInput c.Furnishes c.Foreseen := by
  unfold convertInput
  split
  · exact trivial
  · exact (shape_ends c _ _).bind fun shape _ => Ends.ok (Primitive.furnished_of_bare rfl rfl)

theorem convertCopy_bare (padding : Padding) : Ends (c.convertCopy padding) c.Furnishes c.Foreseen := by
  unfold convertCopy
  exact (c.input_ends 0).bind fun operand _ => Ends.ok (Primitive.furnished_of_bare rfl rfl)

theorem convertPlain_bare {kind : PrimitiveKind} (hkind : kind = .softmax ∨ kind = .unaryOperation)
    (attributes : List (String × AttrValue)) :
    Ends (c.convertPlain kind attributes) c.Furnishes c.Foreseen := by
  unfold convertPlain
  refine (c.input_ends 0).bind fun operand _ => ?_
  refine c.output_ends.bind fun output _ => Ends.ok (Primitive.furnished_of_bare rfl ?_)
  rcases hkind with rfl | rfl <;> rfl

theorem convertPooling_bare (p : Pooling) : Ends (c.convertPooling p) c.Furnishes c.Foreseen := by
  unfold convertPooling
  refine c.paddedInput_ends.bind fun operand _ => ?_
  refine c.window_ends.bind fun window _ => ?_
  exact c.output_ends.bind fun output _ => Ends.ok (Primitive.furnished_of_bare rfl rfl)

theorem convertTaggedPooling_bare : Ends c.convertTaggedPooling c.Furnishes c.Foreseen := by
  unfold convertTaggedPooling
  refine (word_ends c c.node _).bind fun tag _ => ?_
  split
  · exact trivial
  · exact c.convertPooling_bare _

theorem convertBinary_bare (op : BinaryOp) : Ends (c.convertBinary op) c.Furnishes c.Foreseen := by
  unfold convertBinary
  split
  · exact trivial
  · refine (c.input_ends 0).bind fun first _ => ?_
    refine (c.input_ends 1).bind fun second _ => ?_
    split
    · exact trivial
    · exact c.output_ends.bind fun output _ => Ends.ok (Primitive.furnished_of_bare rfl rfl)

theorem convertConcatenation_bare : Ends c.convertConcatenation c.Furnishes c.Foreseen := by
  unfold convertConcatenation
  split
  · exact trivial
  · split
    · exact trivial
    · refine c.inputs_ends.bind fun operands _ => ?_
      split
      · exact trivial
      · refine (c.stack_ends _ _).bind fun stacked _ => ?_
        refine c.output_ends.bind fun output _ => ?_
        split
        · exact trivial
        · exact Ends.ok (Primitive.furnished_of_bare rfl rfl)

theorem convertReorder_bare : Ends c.convertReorder c.Furnishes c.Foreseen := by
  unfold convertReorder
  refine (c.input_ends 0).bind fun operand _ => ?_
  refine c.output_ends.bind fun output _ => ?_
  split
  · exact trivial
  · exact Ends.ok (Primitive.furnished_of_bare rfl rfl)

end Context

/-! ### Plans -/

/-- Whether a converter negates the weight it reads. -/
def Action.subtracts : Action → Bool
  | .minus => true
  | _ => false

theorem Registry.subtracts_iff {kind : OpKind} {cv : Converter} (h : cv ∈ standardBlock kind) :
    cv.action.subtracts = true ↔ kind = .minus := by
  cases kind with
  | minus =>
      cases List.mem_singleton.mp h
      exact iff_of_true rfl rfl
  | unlisted => cases h
  | _ =>
      refine iff_of_false ?_ (by decide)
      revert cv
      decide

/-- Every standard action furnishes the primitives it emits. -/
theorem Action.convert_furnished (a : Action) {c : Context} (hc : ∀ t ∈ c.model.tensors, t.Checked)
    (ha : a.isScript = false) (hminus : a.subtracts = true ↔ c.node.kind = .minus) :
    Ends (a.convert c).2 (fun outcome => ∀ p, outcome.emit = some p → c.Furnishes p) c.Foreseen := by
  have emits {x : Except Error Primitive} (hx : Ends x c.Furnishes c.Foreseen) :
      Ends (Outcome.ofPrimitive <$> x) (fun outcome => ∀ p, outcome.emit = some p → c.Furnishes p)
        c.Foreseen := hx.map fun p hp p' hp' => Option.some.inj hp' ▸ hp
  have forwards : Ends (c.forward 0) (fun outcome => ∀ p, outcome.emit = some p → c.Furnishes p) c.Foreseen := by
    refine c.forward_ends.imp fun outcome h p hp => ?_
    obtain ⟨q, rfl, _⟩ := h
    cases hp
  have hkind (h : a.subtracts = false) : c.node.kind ≠ .minus := hminus.not.mp (Bool.not_eq_true _ ▸ h)
  cases a with
  | input => exact emits c.convertInput_bare
  | outputReorder => exact emits (c.convertCopy_bare _)
  | inputReorder => exact emits (c.convertCopy_bare _)
  | constant => exact emits (Context.convertConstant_furnished hc (hkind rfl))
  | convolution => exact emits (Context.convertConvolution_furnished hc (hkind rfl) (.inl rfl))
  | binaryConvolution => exact emits (Context.convertConvolution_furnished hc (hkind rfl) (.inr rfl))
  | fullyConnected => exact emits (Context.convertFullyConnected_furnished hc (hkind rfl))
  | bias => exact emits (Context.convertPerChannel_furnished hc (hkind rfl) (.inl ⟨rfl, rfl⟩))
  | scaling => exact emits (Context.convertPerChannel_furnished hc (hkind rfl) (.inr ⟨rfl, rfl⟩))
  | minus => exact emits (Context.convertMinus_furnished hc (hminus.mp rfl))
  | batchNormalization => exact emits (Context.convertBatchNormalization_furnished hc (hkind rfl))
  | activation => exact emits (Context.convertTaggedActivation_furnished hc (hkind rfl))
  | fixedActivation f => exact emits (Context.convertActivation_furnished hc (hkind rfl) f)
  | softmax => exact emits (c.convertPlain_bare (.inl rfl) _)
  | pooling => exact emits c.convertTaggedPooling_bare
  | fixedPooling p => exact emits (c.convertPooling_bare p)
  | binary op => exact emits (c.convertBinary_bare op)
  | unary op => exact emits (c.convertPlain_bare (.inr rfl) _)
  | splice =>
      show Ends c.convertSplice _ _
      unfold Context.convertSplice
      split
      · exact trivial
      · exact forwards
      · exact emits c.convertConcatenation_bare
  | reorder => exact emits c.convertReorder_bare
  | reshape =>
      show Ends c.convertReshape _ _
      unfold Context.convertReshape
      refine (c.input_ends 0).bind fun operand _ => ?_
      refine c.output_ends.bind fun output _ => ?_
      split
      · exact forwards
      · split
        · exact trivial
        · refine Ends.ok fun p hp => ?_
          rw [← Option.some.inj hp]
          exact Primitive.furnished_of_bare rfl rfl
  | passthrough => exact forwards
  | script s => cases ha

/-- With the standard registry every primitive of a plan has the constants that its kind needs, each with the
extents it needs and as many values as these describe, and their values are those of the weights of the node that
the primitive comes from. -/
theorem plan_constants_furnished (o : Options) (name : String) (m : Model) (p : Plan) (hm : m.Reachable)
    (hreg : o.registry = .standard) (h : plan o name m = .ok p) :
    ∀ q ∈ p.nodes, ∃ n ∈ p.order, q.group = n.id ∧ q.primitive.Furnished m n := by
  intro q hq
  obtain ⟨paddings, start, final, hp⟩ := plan_eq_ok h
  rw [hp.nodes_eq hm.consistent, List.mem_flatMap] at hq
  obtain ⟨n, hn, hq⟩ := hq
  obtain ⟨c, applied, ht⟩ := hp.turn hm.consistent hreg hn
  obtain ⟨sent, pre, e, post, s, helements, _, horigin, _⟩ := ht.place hq
  have hmodel : (s.here c e).model = m := ht.model
  have hnode : (s.here c e).node = n := ht.node
  have hchecked : ∀ t ∈ (s.here c e).model.tensors, t.Checked := hmodel ▸ hm.checked
  have hminus : e.converter.action.subtracts = true ↔ (s.here c e).node.kind = .minus :=
    hnode ▸ Registry.subtracts_iff (ht.converter_mem helements)
  have hfurnished := (e.converter.action.convert_furnished hchecked horigin.standard hminus).result
    horigin.converted _ rfl
  refine ⟨n, hn, ?_, hmodel ▸ hnode ▸ hfurnished⟩
  rw [horigin.node]
  exact congrArg Node.id ht.node

/-- Filters, a vector, a scalar, a matrix and a value of four axes. -/
def stockTensors : List Tensor :=
  [⟨"filters", [2, 1, 1, 2], .filterChannelRowColumn, #[⟨0⟩, ⟨1⟩, ⟨2⟩, ⟨3⟩]⟩,
   ⟨"levels", [2], .channel, #[⟨6⟩, ⟨7⟩]⟩,
   ⟨"slope", [], .scalar, #[⟨9⟩]⟩,
   ⟨"matrix", [2, 3], .rowColumn, #[⟨0⟩, ⟨1⟩, ⟨2⟩, ⟨3⟩, ⟨4⟩, ⟨5⟩]⟩,
   ⟨"block", [2, 1, 2, 1], .channelRowColumnFilter, #[⟨0⟩, ⟨1⟩, ⟨2⟩, ⟨3⟩]⟩]

theorem stockTensors_reachable : (Model.mk [] stockTensors).Reachable := by
  have hfilters : Model.empty.addTensor "filters" (.singles #[⟨0⟩, ⟨1⟩, ⟨2⟩, ⟨3⟩]) .filterChannelRowColumn
      [2, 1, 1, 2] = .ok ⟨[], stockTensors.take 1⟩ := rfl
  have hlevels : (Model.mk [] (stockTensors.take 1)).addTensor "levels" (.singles #[⟨6⟩, ⟨7⟩]) .channel [2] =
      .ok ⟨[], stockTensors.take 2⟩ := rfl
  have hslope : (Model.mk [] (stockTensors.take 2)).addTensor "slope" (.singles #[⟨9⟩]) .scalar [] =
      .ok ⟨[], stockTensors.take 3⟩ := rfl
  have hmatrix : (Model.mk [] (stockTensors.take 3)).addTensor "matrix"
      (.singles #[⟨0⟩, ⟨1⟩, ⟨2⟩, ⟨3⟩, ⟨4⟩, ⟨5⟩]) .rowColumn [2, 3] = .ok ⟨[], stockTensors.take 4⟩ := rfl
  have hblock : (Model.mk [] (stockTensors.take 4)).addTensor "block" (.singles #[⟨0⟩, ⟨1⟩, ⟨2⟩, ⟨3⟩])
      .channelRowColumnFilter [2, 1, 2, 1] = .ok ⟨[], stockTensors⟩ := rfl
  exact .addTensor (.addTensor (.addTensor (.addTensor (.addTensor .empty hfilters) hlevels) hslope) hmatrix)
    hblock

/-- A convolution that reads its filters in a layout of its own and has one slope for all its channels, a
subtraction of one number from all channels, a matrix product, and a value without a shape. -/
def stockedImage : List Node :=
  [{ id := "image", kind := .input, outputs := ["x"], outputShapes := [⟨[2, 1, 1], .channelRowColumn⟩] },
   { id := "conv", kind := .convolution, inputs := ["x"], outputs := ["y"]
     weights := [("weights", ⟨"filters", .channelRowColumnFilter⟩), ("bias", ⟨"levels", .unset⟩),
       ("alpha", ⟨"slope", .unset⟩)]
     attributes := [("size", .integer 1), ("stride", .integer 1), ("activation", .word "prelu")] },
   { id := "less", kind := .minus, inputs := ["y"], outputs := ["w"], weights := [("bias", ⟨"slope", .channel⟩)] },
   { id := "dense", kind := .fullyConnected, inputs := ["w"], outputs := ["z"]
     weights := [("weights", ⟨"matrix", .unset⟩)], outputShapes := [⟨[3], .channel⟩] },
   { id := "value", kind := .constant, outputs := ["v"], weights := [("value", ⟨"block", .unset⟩)] }]

/-- The shapes that the plan nodes of `stockedImage` write, and their constants. -/
def stockedConstants : List (PrimitiveKind × Shape × List (String × Constant)) :=
  [(.input, ⟨1, 1, 2⟩, []),
   (.convolution, ⟨1, 1, 2⟩, [("weights", ⟨[2, 1, 1, 2], #[⟨0⟩, ⟨2⟩, ⟨1⟩, ⟨3⟩]⟩)]),
   (.bias, ⟨1, 1, 2⟩, [("bias", ⟨[2], #[⟨6⟩, ⟨7⟩]⟩)]),
   (.activation, ⟨1, 1, 2⟩, [("alpha", ⟨[2], #[⟨9⟩, ⟨9⟩]⟩)]),
   (.bias, ⟨1, 1, 2⟩, [("bias", ⟨[2], #[⟨0x80000009⟩, ⟨0x80000009⟩]⟩)]),
   (.fullyConnected, ⟨1, 1, 3⟩, [("weights", ⟨[3, 2], #[⟨0⟩, ⟨3⟩, ⟨1⟩, ⟨4⟩, ⟨2⟩, ⟨5⟩]⟩)]),
   (.constant, ⟨1, 1, 4⟩, [("value", ⟨[1, 1, 2, 2], #[⟨0⟩, ⟨2⟩, ⟨1⟩, ⟨3⟩]⟩)])]

theorem plan_constants_stockedImage :
    ∃ p, plan standardOptions "net" ⟨stockedImage, stockTensors⟩ = .ok p ∧
      p.nodes.map (fun q => (q.primitive.kind, q.primitive.output.shape, q.primitive.constants)) =
        stockedConstants ∧
      ∀ q ∈ p.nodes, ∃ n ∈ p.order, q.group = n.id ∧ q.primitive.Furnished ⟨stockedImage, stockTensors⟩ n := by
  have hreach : (Model.mk stockedImage stockTensors).Reachable :=
    stockTensors_reachable.add_nodes ⟨by decide, by decide, by decide, by decide⟩
  obtain ⟨p, hplan, hnodes⟩ : ∃ p, plan standardOptions "net" ⟨stockedImage, stockTensors⟩ = .ok p ∧
      p.nodes.map (fun q => (q.primitive.kind, q.primitive.output.shape, q.primitive.constants)) =
        stockedConstants :=
    exists_plan_of_view (by cbv)
  exact ⟨p, hplan, hnodes, plan_constants_furnished standardOptions "net" _ p hreach rfl hplan⟩

end NetLowering
