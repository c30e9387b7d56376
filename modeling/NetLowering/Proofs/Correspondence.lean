import Mathlib.Data.List.Forall2
import NetLowering.Proofs.Conversion

/-! # Conversions side by side

Two runs may number their plan nodes differently and still do the same. `Correspondence` pairs the plan
nodes of one run with those of another, such that paired ones are read alike, up to their numbers.
`Follows x y R` says of two computations that the second gives a result whenever the first does, and that
the results are related; the failures may differ.

A conversion looks at its context through a few questions only. If one context mirrors another, that is,
gives corresponding answers, every standard action that succeeds in the one succeeds in the other, with a
primitive that differs only in the numbers of its operands (`Action.convert_follows`). An action that reads
only its first input needs less: `Context.Echoes` asks nothing of the rest of the node, so it also compares
a converter inside a block with the same converter in a block of its own (`Action.convert_echoes`). -/

namespace NetLowering

/-- If the first computation gives a result, so does the second, and the two are related. -/
def Follows {α β : Type} (x : Except Error α) (y : Except Error β) (R : α → β → Prop) : Prop :=
  ∀ a, x = .ok a → ∃ b, y = .ok b ∧ R a b

namespace Follows

variable {α α' β β' : Type} {x : Except Error α} {y : Except Error β} {R : α → β → Prop}
variable {S : α' → β' → Prop}

theorem ok {a : α} {b : β} (h : R a b) : Follows (.ok a) (.ok b) R := by
  intro a' ha
  cases ha
  exact ⟨b, rfl, h⟩

theorem failed {cause : Cause} : Follows (fail cause) y R := by
  intro a ha
  cases ha

theorem ite {p p' : Prop} [Decidable p] [Decidable p'] {x' : Except Error α} {y' : Except Error β}
    (hp : p' ↔ p) (h : Follows x y R) (h' : Follows x' y' R) :
    Follows (if p then x else x') (if p' then y else y') R := by
  by_cases hcond : p
  · rw [if_pos hcond, if_pos (hp.mpr hcond)]
    exact h
  · rw [if_neg hcond, if_neg fun hcond' => hcond (hp.mp hcond')]
    exact h'

theorem guard {p p' : Prop} [Decidable p] [Decidable p'] {cause cause' : Cause} (hp : p' ↔ p)
    (h : Follows x y R) : Follows (if p then fail cause else x) (if p' then fail cause' else y) R :=
  ite hp failed h

theorem of_eq {x y : Except Error α} (h : x = y) : Follows x y Eq := fun a ha => ⟨a, h ▸ ha, rfl⟩

theorem bind {f : α → Except Error α'} {g : β → Except Error β'} (hx : Follows x y R)
    (hf : ∀ a b, R a b → Follows (f a) (g b) S) : Follows (x >>= f) (y >>= g) S := by
  intro a' ha'
  cases x with
  | error e => cases ha'
  | ok a =>
      obtain ⟨b, rfl, hab⟩ := hx a rfl
      exact hf a b hab a' ha'

theorem bind_eq {z : Except Error α} {f : α → Except Error α'} {g : α → Except Error β'}
    (hx : Follows x z Eq) (hf : ∀ a, Follows (f a) (g a) S) : Follows (x >>= f) (z >>= g) S := by
  refine hx.bind ?_
  rintro a _ rfl
  exact hf a

theorem map {f : α → α'} {g : β → β'} (hx : Follows x y R) (hf : ∀ a b, R a b → S (f a) (g b)) :
    Follows (f <$> x) (g <$> y) S := by
  intro a' ha'
  cases x with
  | error e => cases ha'
  | ok a =>
      obtain ⟨b, rfl, hab⟩ := hx a rfl
      cases ha'
      exact ⟨g b, rfl, hf a b hab⟩

theorem inScope {scope scope' : Scope} (hx : Follows x y R) :
    Follows (inScope scope x) (inScope scope' y) R := by
  cases x with
  | error e => intro a ha; cases ha
  | ok a =>
      obtain ⟨b, rfl, hab⟩ := hx a rfl
      exact ok hab

theorem mapM {γ : Type} {f : γ → Except Error α} {g : γ → Except Error β} {xs : List γ}
    (hf : ∀ z ∈ xs, Follows (f z) (g z) R) : Follows (xs.mapM f) (xs.mapM g) (List.Forall₂ R) := by
  induction xs with
  | nil => exact ok .nil
  | cons z rest ih =>
      rw [List.mapM_cons, List.mapM_cons]
      refine (hf z List.mem_cons_self).bind fun a b hab => ?_
      refine (ih fun w hw => hf w (List.mem_cons_of_mem _ hw)).bind fun as bs habs => ?_
      exact ok (.cons hab habs)

end Follows

/-! ### Numbers -/

/-- The operand with the number of its plan node changed. -/
def Operand.renumber (ρ : Nat → Nat) (o : Operand) : Operand := { o with source := ρ o.source }

/-- The primitive with the numbers of its operands changed. -/
def Primitive.renumber (ρ : Nat → Nat) (p : Primitive) : Primitive :=
  { p with operands := p.operands.map (Operand.renumber ρ) }

/-- The plan node with all numbers changed. -/
def PlanNode.renumber (ρ : Nat → Nat) (q : PlanNode) : PlanNode :=
  { q with id := ρ q.id, primitive := q.primitive.renumber ρ }

@[simp] theorem Operand.renumber_id : Operand.renumber id = id := rfl

@[simp] theorem Primitive.renumber_id (p : Primitive) : p.renumber id = p := by
  simp [Primitive.renumber]

/-- Plan nodes of one run and those that stand for them in another. They are read alike, up to their
numbers. -/
structure Correspondence where
  number : Nat → Nat
  Pairs : PlanNode → PlanNode → Prop
  reads : ∀ {q q' : PlanNode}, Pairs q q' → q'.asOperand = q.asOperand.renumber number

/-- The outcome has the same primitive but for its numbers, and leaves the outputs to the plan node that
corresponds. -/
structure Outcome.Matches (k : Correspondence) (outcome outcome' : Outcome) : Prop where
  emit : outcome'.emit = outcome.emit.map (Primitive.renumber k.number)
  forward : Option.Rel k.Pairs outcome.forward outcome'.forward

/-! ### What a node carries -/

/-- The weights an action may look at. -/
def Action.roles : Action → List String
  | .constant => ["value"]
  | .convolution | .binaryConvolution | .fullyConnected => ["weights"]
  | .bias | .minus => ["bias"]
  | .scaling => ["scale"]
  | .batchNormalization => ["mean", "variance"]
  | .activation | .fixedActivation _ => ["alpha"]
  | _ => []

/-- The attributes an action may look at. -/
def Action.names : Action → List String
  | .convolution | .binaryConvolution | .fixedPooling _ => ["size", "stride"]
  | .pooling => ["pooling_type", "size", "stride"]
  | .activation => ["activation", "alpha"]
  | .fixedActivation _ => ["alpha"]
  | .splice => [spliceAxisAttribute]
  | _ => []

section nodes
variable {n n' : Node} {name role : String}

theorem attributeOf_follows (h : n'.attribute? name = n.attribute? name) :
    Follows (n.attributeOf name) (n'.attributeOf name) Eq := by
  unfold Node.attributeOf
  rw [h]
  split
  · exact .ok rfl
  · exact .failed

theorem integer_follows (h : n'.attribute? name = n.attribute? name) :
    Follows (n.integer name) (n'.integer name) Eq := by
  unfold Node.integer
  refine (attributeOf_follows h).bind_eq fun value => ?_
  split
  · exact .ok rfl
  · exact .failed

theorem number_follows (h : n'.attribute? name = n.attribute? name) :
    Follows (n.number name) (n'.number name) Eq := by
  unfold Node.number
  refine (attributeOf_follows h).bind_eq fun value => ?_
  split
  · exact .ok rfl
  · exact .failed

theorem word_follows (h : n'.attribute? name = n.attribute? name) :
    Follows (n.word name) (n'.word name) Eq := by
  unfold Node.word
  refine (attributeOf_follows h).bind_eq fun value => ?_
  split
  · exact .ok rfl
  · exact .failed

theorem weightTensor_follows {m m' : Model}
    (htensor : ∀ id t, m.tensor? id = some t → m'.tensor? id = some t)
    (h : n'.weight? role = n.weight? role) :
    Follows (m.weightTensor n role) (m'.weightTensor n' role) Eq := by
  unfold Model.weightTensor Model.tensor
  rw [h]
  split
  · exact .failed
  · rename_i ref _
    refine Follows.inScope ?_
    cases ht : m.tensor? ref.tensor with
    | none => exact .failed
    | some t =>
        rw [htensor _ t ht]
        exact .ok rfl

end nodes

/-! ### Contexts that answer alike -/

/-- What an action that reads only its first input can learn from the two contexts is the same, up to the
numbers of plan nodes. -/
structure Context.Echoes (k : Correspondence) (a : Action) (c c' : Context) : Prop where
  tensor : ∀ id t, c.model.tensor? id = some t → c'.model.tensor? id = some t
  options : c'.options = c.options
  weights : ∀ role ∈ a.roles, c'.node.weight? role = c.node.weight? role
  attributes : ∀ name ∈ a.names, c'.node.attribute? name = c.node.attribute? name
  outputShapes : c'.node.outputShapes = c.node.outputShapes
  inputPadding : c'.inputPadding = c.inputPadding
  border : c'.border = c.border
  inputs : c'.node.inputs = [] → c.node.inputs = []
  input : Follows (c.input 0) (c'.input 0) fun o o' => o' = o.renumber k.number

def Node.withInputs (n : Node) (inputs : List String) : Node := { n with inputs }

/-- The owners of the inputs correspond, and so do the plan nodes before. -/
structure Context.Sees (k : Correspondence) (c c' : Context) : Prop where
  owners : List.Forall₂ (fun x x' => Option.Rel k.Pairs (c.table.owner? x) (c'.table.owner? x'))
    c.node.inputs c'.node.inputs
  previous : Option.Rel k.Pairs c.previous c'.previous

/-- The second context is the first but for the names of the inputs and the numbers of plan nodes. -/
structure Context.Mirrors (k : Correspondence) (c c' : Context) : Prop extends c.Sees k c' where
  tensor : ∀ id t, c.model.tensor? id = some t → c'.model.tensor? id = some t
  options : c'.options = c.options
  node : c'.node = c.node.withInputs c'.node.inputs
  outputPadding : c'.outputPadding = c.outputPadding
  isFirst : c'.isFirst = c.isFirst
  isLast : c'.isLast = c.isLast

/-- Whether an action reads nothing but its first input and what the node carries. -/
def Action.isLocal : Action → Bool
  | .convolution | .binaryConvolution | .fullyConnected | .bias | .scaling | .minus
  | .batchNormalization | .activation | .fixedActivation _ | .softmax | .pooling | .fixedPooling _
  | .unary _ | .reorder => true
  | _ => false

namespace Context.Echoes

variable {k : Correspondence} {a : Action} {c c' : Context} (h : c.Echoes k a c')
include h

theorem paddedInput : Follows c.paddedInput c'.paddedInput fun o o' => o' = o.renumber k.number := by
  unfold Context.paddedInput
  refine h.input.bind ?_
  rintro o _ rfl
  rw [h.inputPadding]
  exact .ok rfl

theorem outputShape : Follows c.outputShape c'.outputShape Eq := by
  unfold Context.outputShape
  rw [h.outputShapes]
  split
  · exact .of_eq rfl
  · by_cases hnil : c.node.inputs = []
    · rw [if_pos (by simp [hnil])]
      exact .failed
    · rw [if_neg (by simpa using hnil), if_neg (by simpa using fun h' => hnil (h.inputs h'))]
      refine h.input.bind ?_
      rintro o _ rfl
      exact .ok rfl

theorem output : Follows c.output c'.output Eq := by
  unfold Context.output
  refine h.outputShape.bind_eq fun shape => .ok ?_
  have hborder := h.border
  unfold Context.border at hborder
  rw [hborder]

theorem weight {role : String} (hrole : role ∈ a.roles) :
    Follows (c.weight role) (c'.weight role) Eq := by
  unfold Context.weight Model.canonicalWeight
  refine (weightTensor_follows h.tensor (h.weights role hrole)).bind_eq fun t => ?_
  unfold Model.weightLayout
  rw [h.weights role hrole]
  exact (Follows.of_eq rfl).inScope

theorem vector {role : String} (hrole : role ∈ a.roles) (size : Int64) :
    Follows (c.vector role size) (c'.vector role size) Eq := by
  unfold Context.vector
  refine (weightTensor_follows h.tensor (h.weights role hrole)).bind_eq fun t => ?_
  split
  · exact .of_eq rfl
  · exact (h.weight hrole).bind_eq fun value => .guard Iff.rfl (.ok rfl)

theorem window (hsize : "size" ∈ a.names) (hstride : "stride" ∈ a.names) :
    Follows c.window c'.window Eq := by
  unfold Context.window
  refine (integer_follows (h.attributes _ hsize)).bind_eq fun size => ?_
  exact (integer_follows (h.attributes _ hstride)).bind_eq fun stride => .guard Iff.rfl (.ok rfl)

theorem convertCopy (padding : Padding) : Follows (c.convertCopy padding) (c'.convertCopy padding)
    fun p p' => p' = p.renumber k.number := by
  unfold Context.convertCopy
  refine h.input.bind ?_
  rintro o _ rfl
  exact .ok rfl

theorem convertConvolution (kind : PrimitiveKind) (hrole : "weights" ∈ a.roles)
    (hsize : "size" ∈ a.names) (hstride : "stride" ∈ a.names) :
    Follows (c.convertConvolution kind) (c'.convertConvolution kind)
      fun p p' => p' = p.renumber k.number := by
  unfold Context.convertConvolution
  refine h.paddedInput.bind ?_
  rintro operand _ rfl
  refine (h.window hsize hstride).bind_eq fun window => ?_
  refine (h.weight hrole).bind_eq fun weights => ?_
  split
  · exact h.output.bind_eq fun output => .guard Iff.rfl (.ok rfl)
  · exact .failed

theorem convertFullyConnected (hrole : "weights" ∈ a.roles) :
    Follows c.convertFullyConnected c'.convertFullyConnected
      fun p p' => p' = p.renumber k.number := by
  unfold Context.convertFullyConnected
  refine h.paddedInput.bind ?_
  rintro operand _ rfl
  refine (h.weight hrole).bind_eq fun weights => ?_
  exact h.output.bind_eq fun output => .guard Iff.rfl (.ok rfl)

theorem convertPerChannel (kind : PrimitiveKind) {role : String} (hrole : role ∈ a.roles) :
    Follows (c.convertPerChannel kind role) (c'.convertPerChannel kind role)
      fun p p' => p' = p.renumber k.number := by
  unfold Context.convertPerChannel
  refine h.input.bind ?_
  rintro operand _ rfl
  refine h.output.bind_eq fun output => ?_
  exact (h.vector hrole _).bind_eq fun vector => .ok rfl

theorem convertMinus (hrole : "bias" ∈ a.roles) :
    Follows c.convertMinus c'.convertMinus fun p p' => p' = p.renumber k.number := by
  unfold Context.convertMinus
  refine (h.convertPerChannel .bias hrole).bind ?_
  rintro p _ rfl
  exact .ok rfl

theorem convertBatchNormalization (hmean : "mean" ∈ a.roles) (hvariance : "variance" ∈ a.roles) :
    Follows c.convertBatchNormalization c'.convertBatchNormalization
      fun p p' => p' = p.renumber k.number := by
  unfold Context.convertBatchNormalization
  refine (h.convertPerChannel .batchNormalization hmean).bind ?_
  rintro p _ rfl
  refine (h.vector hvariance _).bind_eq fun variance => .ok ?_
  rw [h.options]
  rfl

theorem leakySlope (hname : "alpha" ∈ a.names) : Follows c.leakySlope c'.leakySlope Eq := by
  unfold Context.leakySlope Node.hasAttribute
  rw [h.attributes _ hname, h.options]
  split
  · exact number_follows (h.attributes _ hname)
  · exact .ok rfl

theorem convertActivation (f : Activation) (hrole : "alpha" ∈ a.roles) (hname : "alpha" ∈ a.names) :
    Follows (c.convertActivation f) (c'.convertActivation f)
      fun p p' => p' = p.renumber k.number := by
  unfold Context.convertActivation
  refine h.input.bind ?_
  rintro operand _ rfl
  refine h.output.bind_eq fun output => ?_
  dsimp only
  split
  · exact (h.leakySlope hname).bind_eq fun slope => .ok rfl
  · unfold Node.hasWeight
    rw [h.weights _ hrole]
    split
    · exact (h.vector hrole _).bind_eq fun slopes => .ok rfl
    · exact .failed
  · exact .ok rfl

theorem convertTaggedActivation (hrole : "alpha" ∈ a.roles) (hname : "alpha" ∈ a.names)
    (htag : "activation" ∈ a.names) :
    Follows c.convertTaggedActivation c'.convertTaggedActivation
      fun p p' => p' = p.renumber k.number := by
  unfold Context.convertTaggedActivation
  refine (word_follows (h.attributes _ htag)).bind_eq fun tag => ?_
  split
  · exact .failed
  · exact h.convertActivation _ hrole hname

theorem convertPlain (kind : PrimitiveKind) (attributes : List (String × AttrValue)) :
    Follows (c.convertPlain kind attributes) (c'.convertPlain kind attributes)
      fun p p' => p' = p.renumber k.number := by
  unfold Context.convertPlain
  refine h.input.bind ?_
  rintro operand _ rfl
  exact h.output.bind_eq fun output => .ok rfl

theorem convertPooling (p : Pooling) (hsize : "size" ∈ a.names) (hstride : "stride" ∈ a.names) :
    Follows (c.convertPooling p) (c'.convertPooling p) fun p p' => p' = p.renumber k.number := by
  unfold Context.convertPooling
  refine h.paddedInput.bind ?_
  rintro operand _ rfl
  refine (h.window hsize hstride).bind_eq fun window => ?_
  exact h.output.bind_eq fun output => .ok rfl

theorem convertTaggedPooling (hsize : "size" ∈ a.names) (hstride : "stride" ∈ a.names)
    (htag : "pooling_type" ∈ a.names) :
    Follows c.convertTaggedPooling c'.convertTaggedPooling fun p p' => p' = p.renumber k.number := by
  unfold Context.convertTaggedPooling
  refine (word_follows (h.attributes _ htag)).bind_eq fun tag => ?_
  split
  · exact .failed
  · exact h.convertPooling _ hsize hstride

theorem convertReorder : Follows c.convertReorder c'.convertReorder
    fun p p' => p' = p.renumber k.number := by
  unfold Context.convertReorder
  refine h.input.bind ?_
  rintro operand _ rfl
  exact h.output.bind_eq fun output => .guard Iff.rfl (.ok rfl)

omit h in
theorem emits {x x' : Except Error Primitive}
    (hx : Follows x x' fun p p' => p' = p.renumber k.number) :
    Follows (Outcome.ofPrimitive <$> x) (Outcome.ofPrimitive <$> x') (Outcome.Matches k) := by
  refine hx.map ?_
  rintro p _ rfl
  exact ⟨rfl, .none⟩

end Context.Echoes

/-- An action that reads only its first input does the same wherever it gets the same answers. -/
theorem Action.convert_echoes {k : Correspondence} {a : Action} {c c' : Context}
    (h : c.Echoes k a c') (ha : a.isLocal = true) :
    Follows (a.convert c).2 (a.convert c').2 (Outcome.Matches k) := by
  cases a with
  | convolution =>
      exact Context.Echoes.emits (h.convertConvolution _ (by decide) (by decide) (by decide))
  | binaryConvolution =>
      exact Context.Echoes.emits (h.convertConvolution _ (by decide) (by decide) (by decide))
  | fullyConnected => exact Context.Echoes.emits (h.convertFullyConnected (by decide))
  | bias => exact Context.Echoes.emits (h.convertPerChannel _ (by decide))
  | scaling => exact Context.Echoes.emits (h.convertPerChannel _ (by decide))
  | minus => exact Context.Echoes.emits (h.convertMinus (by decide))
  | batchNormalization =>
      exact Context.Echoes.emits (h.convertBatchNormalization (by decide) (by decide))
  | activation =>
      exact Context.Echoes.emits (h.convertTaggedActivation (by decide) (by decide) (by decide))
  | fixedActivation f => exact Context.Echoes.emits (h.convertActivation f (by simp [roles]) (by simp [names]))
  | softmax => exact Context.Echoes.emits (h.convertPlain _ _)
  | pooling =>
      exact Context.Echoes.emits (h.convertTaggedPooling (by decide) (by decide) (by decide))
  | fixedPooling p => exact Context.Echoes.emits (h.convertPooling p (by simp [names]) (by simp [names]))
  | unary op => exact Context.Echoes.emits (h.convertPlain _ _)
  | reorder => exact Context.Echoes.emits h.convertReorder
  | input | outputReorder | inputReorder | constant | binary | splice | reshape | passthrough | script =>
      cases ha

/-! ### Contexts that mirror one another -/

namespace Context.Sees

variable {k : Correspondence} {c c' : Context} (h : c.Sees k c')
include h

theorem inputs_length : c'.node.inputs.length = c.node.inputs.length := h.owners.length_eq.symm

theorem owner (i : Nat) : Option.Rel k.Pairs (c.node.inputs[i]?.bind c.table.owner?)
    (c'.node.inputs[i]?.bind c'.table.owner?) := by
  have hlen := h.inputs_length
  rcases Nat.lt_or_ge i c.node.inputs.length with hi | hi
  · have hi' : i < c'.node.inputs.length := by omega
    rw [List.getElem?_eq_getElem hi, List.getElem?_eq_getElem hi']
    exact h.owners.get hi hi'
  · rw [List.getElem?_eq_none hi, List.getElem?_eq_none (by omega)]
    exact .none

theorem producer (index : Int) : Follows (c.producer index) (c'.producer index) k.Pairs := by
  intro q hq
  obtain ⟨i, x, rfl, hi, howner⟩ := (c.producer_ends index).result hq
  have hrel := h.owner i
  rw [hi, Option.bind_some, howner] at hrel
  cases hi' : c'.node.inputs[i]? with
  | none => rw [hi'] at hrel; cases hrel
  | some x' =>
      rw [hi', Option.bind_some] at hrel
      cases howner' : c'.table.owner? x' with
      | none => rw [howner'] at hrel; cases hrel
      | some q' =>
          rw [howner'] at hrel
          cases hrel with
          | some hpair => exact ⟨q', c'.producer_eq_ok hi' howner', hpair⟩

theorem input (index : Int) :
    Follows (c.input index) (c'.input index) fun o o' => o' = o.renumber k.number := by
  have hproducer : Follows (c.producer index >>= fun p => .ok p.asOperand)
      (c'.producer index >>= fun p => .ok p.asOperand) fun o o' => o' = o.renumber k.number :=
    (h.producer index).bind fun q q' hpair => .ok (k.reads hpair)
  rw [Context.input_eq, Context.input_eq]
  by_cases hzero : index = 0
  · rw [if_pos hzero, if_pos hzero]
    have hprev := h.previous
    generalize c.previous = previous at hprev
    generalize c'.previous = previous' at hprev
    cases hprev with
    | some hpair => exact .ok (k.reads hpair)
    | none => exact hproducer
  · rw [if_neg hzero, if_neg hzero]
    exact hproducer

theorem inputs : Follows c.inputs c'.inputs fun os os' => os' = os.map (Operand.renumber k.number) := by
  unfold Context.inputs
  rw [h.inputs_length]
  intro os hos
  obtain ⟨os', hos', hall⟩ := Follows.mapM (fun i _ => h.input (Int.ofNat i)) os hos
  have hmap := List.forall₂_map_left_iff.mpr (hall.imp fun _ _ ho => ho.symm)
  rw [List.forall₂_eq_eq_eq] at hmap
  exact ⟨os', hos', hmap.symm⟩

theorem inputPaddedOtherwise (hpadding : c'.node.inputPadding = c.node.inputPadding) :
    Condition.inputPaddedOtherwise.holds c' = Condition.inputPaddedOtherwise.holds c := by
  dsimp only [Condition.holds]
  rw [hpadding]
  cases hproducer : c.producer 0 with
  | ok q =>
      obtain ⟨q', hq', hpair⟩ := h.producer 0 q hproducer
      have hbuffer : q'.primitive.output = q.primitive.output :=
        congrArg Operand.buffer (k.reads hpair)
      rw [hq']
      dsimp only
      rw [hbuffer]
  | error err =>
      cases hproducer' : c'.producer 0 with
      | error err' => rfl
      | ok q' =>
          obtain ⟨i, x', hi, hx', howner'⟩ := (c'.producer_ends 0).result hproducer'
          cases hi
          have hrel := h.owner 0
          rw [hx', Option.bind_some, howner'] at hrel
          unfold Context.producer at hproducer
          cases hx : c.node.inputs[0]? with
          | none => rw [hx] at hrel; cases hrel
          | some x =>
              rw [hx, Option.bind_some] at hrel
              cases howner : c.table.owner? x with
              | none => rw [howner] at hrel; cases hrel
              | some q => simp [hx, howner] at hproducer

end Context.Sees

namespace Context.Mirrors

variable {k : Correspondence} {c c' : Context} (h : c.Mirrors k c')
include h

theorem border : c'.border = c.border := by
  unfold Context.border
  rw [h.isLast, h.outputPadding]

theorem echoes (a : Action) : c.Echoes k a c' where
  tensor := h.tensor
  options := h.options
  weights role _ := by rw [h.node]; rfl
  attributes name _ := by rw [h.node]; rfl
  outputShapes := by rw [h.node]; rfl
  inputPadding := by unfold Context.inputPadding; rw [h.isFirst, h.node]; rfl
  border := h.border
  inputs hnil := List.eq_nil_of_length_eq_zero (by rw [← h.inputs_length, hnil]; rfl)
  input := h.input 0

theorem convertInput : Follows c.convertInput c'.convertInput fun p p' => p' = p.renumber k.number := by
  unfold Context.convertInput
  rw [h.node]
  dsimp only [Node.withInputs]
  split
  · exact .failed
  · exact (Follows.of_eq rfl).bind_eq fun shape => .ok rfl

theorem convertConstant : Follows c.convertConstant c'.convertConstant
    fun p p' => p' = p.renumber k.number := by
  unfold Context.convertConstant
  refine ((h.echoes .constant).weight (by decide)).bind_eq fun value => ?_
  have hrest (output : Buffer) : Follows
      (if output.shape.size ≠ value.size then fail (.constantSize value.size output.shape)
        else .ok { kind := .constant, output, constants := [("value", value)] })
      (if output.shape.size ≠ value.size then fail (.constantSize value.size output.shape)
        else .ok { kind := .constant, output, constants := [("value", value)] })
      fun p p' : Primitive => p' = p.renumber k.number := .guard Iff.rfl (.ok rfl)
  rw [(h.echoes .constant).outputShapes, h.outputPadding]
  dsimp only
  split
  · exact hrest _
  · exact (h.echoes .constant).output.bind_eq hrest

theorem convertBinary (op : BinaryOp) : Follows (c.convertBinary op) (c'.convertBinary op)
    fun p p' => p' = p.renumber k.number := by
  unfold Context.convertBinary
  rw [h.inputs_length]
  refine .guard Iff.rfl ?_
  refine (h.input 0).bind ?_
  rintro first _ rfl
  refine (h.input 1).bind ?_
  rintro second _ rfl
  exact .guard Iff.rfl ((h.echoes (.binary op)).output.bind_eq fun output => .ok rfl)

theorem convertConcatenation : Follows c.convertConcatenation c'.convertConcatenation
    fun p p' => p' = p.renumber k.number := by
  unfold Context.convertConcatenation
  have haxis : Follows (c.node.word spliceAxisAttribute) (c'.node.word spliceAxisAttribute) Eq :=
    word_follows ((h.echoes .splice).attributes _ List.mem_cons_self)
  cases hword : c.node.word spliceAxisAttribute with
  | error e => exact .failed
  | ok axis =>
      obtain ⟨_, hword', rfl⟩ := haxis axis hword
      rw [hword']
      refine .guard Iff.rfl ?_
      refine h.inputs.bind ?_
      rintro operands _ rfl
      cases operands with
      | nil => exact .failed
      | cons first rest =>
          have hshapes : ((first :: rest).map (Operand.renumber k.number)).map
              (fun o => o.buffer.shape) = (first :: rest).map fun o => o.buffer.shape := by
            rw [List.map_map]
            rfl
          dsimp only [List.map_cons] at hshapes ⊢
          rw [hshapes]
          refine Follows.bind_eq (.of_eq rfl) fun stacked => ?_
          refine (h.echoes .splice).output.bind_eq fun output => ?_
          rw [(h.echoes .splice).outputShapes]
          exact .guard Iff.rfl (.ok rfl)

theorem forward (index : Int) :
    Follows (c.forward index) (c'.forward index) (Outcome.Matches k) := by
  unfold Context.forward
  exact (h.producer index).bind fun q q' hpair => .ok ⟨rfl, .some hpair⟩

theorem convertSplice : Follows c.convertSplice c'.convertSplice (Outcome.Matches k) := by
  have hlen := h.inputs_length
  unfold Context.convertSplice
  cases hinputs : c.node.inputs with
  | nil => exact .failed
  | cons x rest =>
      rw [hinputs] at hlen
      obtain ⟨x', rest', hinputs'⟩ := List.exists_of_length_succ _ hlen
      rw [hinputs', List.length_cons, List.length_cons] at hlen
      rw [hinputs']
      cases rest with
      | nil =>
          rw [List.eq_nil_of_length_eq_zero (l := rest') (by simpa using hlen)]
          exact h.forward 0
      | cons y more =>
          obtain ⟨y', more', rfl⟩ := List.exists_of_length_succ rest' (by simpa using hlen)
          exact Echoes.emits h.convertConcatenation

theorem convertReshape : Follows c.convertReshape c'.convertReshape (Outcome.Matches k) := by
  unfold Context.convertReshape
  refine (h.input 0).bind ?_
  rintro operand _ rfl
  refine (h.echoes .reshape).output.bind_eq fun output => ?_
  exact .ite Iff.rfl (h.forward 0) (.guard Iff.rfl (.ok ⟨rfl, .none⟩))

end Context.Mirrors

/-- Every standard action does the same in contexts that mirror one another. -/
theorem Action.convert_follows {k : Correspondence} {c c' : Context} (h : c.Mirrors k c') (a : Action)
    (ha : a.isScript = false) : Follows (a.convert c).2 (a.convert c').2 (Outcome.Matches k) := by
  cases hlocal : a.isLocal with
  | true => exact Action.convert_echoes (h.echoes a) hlocal
  | false =>
      cases a with
      | input => exact Context.Echoes.emits h.convertInput
      | outputReorder =>
          refine Context.Echoes.emits ?_
          rw [h.outputPadding]
          exact (h.echoes .outputReorder).convertCopy _
      | inputReorder =>
          have hpadding : c'.node.inputPadding = c.node.inputPadding := by rw [h.node]; rfl
          refine Context.Echoes.emits ?_
          rw [hpadding]
          exact (h.echoes .inputReorder).convertCopy _
      | constant => exact Context.Echoes.emits h.convertConstant
      | binary op => exact Context.Echoes.emits (h.convertBinary op)
      | splice => exact h.convertSplice
      | reshape => exact h.convertReshape
      | passthrough => exact h.forward 0
      | script s => cases ha
      | _ => cases hlocal

end NetLowering
