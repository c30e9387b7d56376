import Mathlib.Data.List.Forall2
import NetLowering.Converter.Conversion

/-! # How computations end

`Ends x result cause` says of a computation what its result has, if it gives one, and for which causes
it fails otherwise. It is carried through sequences of steps by `Ends.bind`, so that one lemma for each
function says both. For what a converter asks of its context, the causes are those of
`Context.Foreseen`: no query finds an input without an owner but one that really has none, and none
fails because a whole block came to nothing. -/

namespace NetLowering

/-- The computation gives a result with one property, or fails for a cause with the other. -/
def Ends {α : Type} (x : Except Error α) (result : α → Prop) (cause : Cause → Prop) : Prop :=
  match x with
  | .ok a => result a
  | .error e => cause e.cause

namespace Ends

variable {α β : Type} {x : Except Error α} {P Q : α → Prop} {R : β → Prop} {C : Cause → Prop}

theorem result (h : Ends x P C) {a : α} (hx : x = .ok a) : P a := by
  rw [hx] at h; exact h

theorem cause (h : Ends x P C) {e : Error} (hx : x = .error e) : C e.cause := by
  rw [hx] at h; exact h

theorem ok {a : α} (h : P a) : Ends (.ok a) P C := h

theorem imp (h : Ends x P C) (hPQ : ∀ a, P a → Q a) : Ends x Q C := by
  cases x with
  | ok a => exact hPQ a h
  | error e => exact h

theorem self (h : Ends x P C) : Ends x (fun a => x = .ok a ∧ P a) C := by
  cases x with
  | ok a => exact ⟨rfl, h⟩
  | error e => exact h

theorem bind {f : α → Except Error β} (hx : Ends x P C) (hf : ∀ a, P a → Ends (f a) R C) :
    Ends (x >>= f) R C := by
  cases x with
  | ok a => exact hf a hx
  | error e => exact hx

theorem map {f : α → β} (hx : Ends x P C) (hf : ∀ a, P a → R (f a)) : Ends (f <$> x) R C := by
  cases x with
  | ok a => exact hf a hx
  | error e => exact hx

theorem inScope {scope : Scope} (hx : Ends x P C) : Ends (inScope scope x) P C := by
  cases x with
  | ok a => exact hx
  | error e => exact hx

theorem mapM {γ : Type} {f : γ → Except Error α} {xs : List γ} {S : γ → α → Prop}
    (hf : ∀ y ∈ xs, Ends (f y) (S y) C) : Ends (xs.mapM f) (List.Forall₂ S xs) C := by
  induction xs with
  | nil => exact List.Forall₂.nil
  | cons y rest ih =>
      rw [List.mapM_cons]
      refine (hf y List.mem_cons_self).bind fun a ha => ?_
      refine (ih fun z hz => hf z (List.mem_cons_of_mem _ hz)).bind fun as has => ?_
      exact List.Forall₂.cons ha has

end Ends

/-! ### Causes -/

namespace Context

/-- The causes for which a converter may fail in a context: an input is found without an owner only if
it has none, and a converter never says that nothing was produced, or that there is no converter. -/
def Foreseen (c : Context) : Cause → Prop
  | .inputNotOwned value => value ∈ c.node.inputs ∧ c.table.owner? value = none
  | .nothingProduced | .noConverter _ => False
  | _ => True

end Context

variable (c : Context)

theorem attributeOf_ends (n : Node) (name : String) :
    Ends (n.attributeOf name) (fun _ => True) c.Foreseen := by
  unfold Node.attributeOf
  split <;> exact trivial

theorem integer_ends (n : Node) (name : String) :
    Ends (n.integer name) (fun _ => True) c.Foreseen := by
  unfold Node.integer
  refine (attributeOf_ends c n name).bind fun value _ => ?_
  split <;> exact trivial

theorem number_ends (n : Node) (name : String) : Ends (n.number name) (fun _ => True) c.Foreseen := by
  unfold Node.number
  refine (attributeOf_ends c n name).bind fun value _ => ?_
  split <;> exact trivial

theorem word_ends (n : Node) (name : String) : Ends (n.word name) (fun _ => True) c.Foreseen := by
  unfold Node.word
  refine (attributeOf_ends c n name).bind fun value _ => ?_
  split <;> exact trivial

theorem canonicalAs_ends (t : Tensor) (layout : Layout) :
    Ends (t.canonicalAs layout) (fun _ => True) c.Foreseen := by
  unfold Tensor.canonicalAs
  split
  · exact trivial
  · split
    · exact trivial
    · split <;> exact trivial

theorem tensorVector_ends (t : Tensor) (size : Int64) :
    Ends (t.vector size) (fun _ => True) c.Foreseen := by
  unfold Tensor.vector fillBuffer
  split
  · split <;> exact trivial
  · exact trivial

theorem weightTensor_ends (m : Model) (n : Node) (role : String) :
    Ends (m.weightTensor n role) (fun _ => True) c.Foreseen := by
  unfold Model.weightTensor Model.tensor
  split
  · exact trivial
  · refine Ends.inScope ?_
    split <;> exact trivial

theorem shape_ends (d : ShapeDecl) (padding : Int64) :
    Ends (d.canonical padding) (fun _ => True) c.Foreseen := by
  unfold ShapeDecl.canonical
  have harrange : Ends d.arrange (fun _ => True) c.Foreseen := by
    unfold ShapeDecl.arrange
    split <;> exact trivial
  refine harrange.bind fun s _ => ?_
  split
  · exact trivial
  · split <;> exact trivial

/-! ### Queries -/

namespace Context

/-- The border a converter writes as an element of a block: only the last writes the one the readers
expect. -/
def border : Padding := if c.isLast then c.outputPadding else .absent

theorem producer_ends (index : Int) :
    Ends (c.producer index) (fun p => ∃ i x, index = Int.ofNat i ∧ c.node.inputs[i]? = some x ∧
      c.table.owner? x = some p) c.Foreseen := by
  cases index with
  | negSucc i => exact trivial
  | ofNat i =>
      unfold producer
      dsimp only
      cases hi : c.node.inputs[i]? with
      | none => exact trivial
      | some x =>
          dsimp only
          cases howner : c.table.owner? x with
          | none => exact ⟨List.mem_of_getElem? hi, howner⟩
          | some p => exact ⟨i, x, rfl, hi, howner⟩

theorem producer_eq_ok {i : Nat} {x : String} {q : PlanNode} (hi : c.node.inputs[i]? = some x)
    (hq : c.table.owner? x = some q) : c.producer i = .ok q := by
  unfold producer
  simp only [hi, hq]

theorem producer_eq_error {i : Nat} {x : String} (hi : c.node.inputs[i]? = some x)
    (hx : c.table.owner? x = none) : c.producer i = fail (.inputNotOwned x) := by
  unfold producer
  simp only [hi, hx]

theorem input_eq (index : Int) : c.input index =
    match (if index = 0 then c.previous else none) with
    | some p => .ok p.asOperand
    | none => (c.producer index >>= fun p => .ok p.asOperand) := by
  unfold input
  by_cases h : index = 0
  · subst h
    cases c.previous <;> rfl
  · rw [if_neg h]
    cases c.previous <;> simp [h]

/-- An operand is the plan node before, as input 0, or else the owner of the input. -/
theorem input_ends (index : Int) : Ends (c.input index)
    (fun o => (index = 0 ∧ ∃ p, c.previous = some p ∧ o = p.asOperand) ∨
      ((index = 0 → c.previous = none) ∧ ∃ p, c.producer index = .ok p ∧ o = p.asOperand))
    c.Foreseen := by
  rw [input_eq]
  by_cases h : index = 0
  · rw [if_pos h]
    cases c.previous with
    | some p => exact Ends.ok (.inl ⟨h, p, rfl, rfl⟩)
    | none =>
        exact (c.producer_ends index).self.bind fun p hp =>
          Ends.ok (.inr ⟨fun _ => rfl, p, hp.1, rfl⟩)
  · rw [if_neg h]
    exact (c.producer_ends index).self.bind fun p hp =>
      Ends.ok (.inr ⟨fun hzero => absurd hzero h, p, hp.1, rfl⟩)

theorem inputs_ends : Ends c.inputs
    (List.Forall₂ (fun i o => c.input (Int.ofNat i) = .ok o) (List.range c.node.inputs.length))
    c.Foreseen := by
  unfold inputs
  exact Ends.mapM fun i _ => (c.input_ends _).self.imp fun _ h => h.1

theorem outputShape_ends : Ends c.outputShape (fun _ => True) c.Foreseen := by
  unfold outputShape
  split
  · exact shape_ends c _ _
  · split
    · exact trivial
    · exact (c.input_ends 0).bind fun _ _ => Ends.ok trivial

theorem output_ends : Ends c.output (fun b => b.padding = c.border) c.Foreseen := by
  unfold output
  exact c.outputShape_ends.bind fun _ _ => Ends.ok rfl

theorem weight_ends (role : String) : Ends (c.weight role) (fun _ => True) c.Foreseen := by
  unfold weight Model.canonicalWeight
  refine (weightTensor_ends c c.model c.node role).bind fun t _ => ?_
  exact (canonicalAs_ends c t _).inScope

theorem vector_ends (role : String) (size : Int64) :
    Ends (c.vector role size) (fun _ => True) c.Foreseen := by
  unfold vector
  refine (weightTensor_ends c c.model c.node role).bind fun t _ => ?_
  split
  · exact (tensorVector_ends c t size).bind fun _ _ => trivial
  · refine (c.weight_ends role).bind fun a _ => ?_
    split <;> exact trivial

end Context

end NetLowering
