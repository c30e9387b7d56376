import NetLowering.Proofs.Reachable

/-! # Models after any calls

A model is built by calls that may be refused, in any order and number. `Model.after` makes a sequence of
calls on the empty model, and `Model.accepted` is the record of those that were not refused. A model holds the
nodes and tensors of the record, in its order (`nodes_after`, `tensors_after`), and under each id the tensor that
was first made (`tensor?_after`). -/

namespace NetLowering

/-- A call that adds to a model. -/
inductive Addition where
  | tensor (id : String) (flat : FlatData) (layout : Layout) (dims : List Int64)
  | node (n : Node)

namespace Addition

def node? : Addition → Option Node
  | .tensor _ _ _ _ => none
  | .node n => some n

/-- The tensor of a call, if it can be made. -/
def tensor? [HalfConversion] : Addition → Option Tensor
  | .tensor id flat layout dims => (Tensor.make id flat layout dims).toOption
  | .node _ => none

end Addition

namespace Model

variable {m m' : Model} {a : Addition}

/-! ### Lookups -/

theorem tensor_eq_ok_iff {id : String} {t : Tensor} : m.tensor id = .ok t ↔ m.tensor? id = some t := by
  unfold tensor
  cases m.tensor? id <;> simp [fail]

variable [HalfConversion]

def add (m : Model) : Addition → Except Error Model
  | .tensor id flat layout dims => m.addTensor id flat layout dims
  | .node n => m.addNode n

/-- The model with which a caller goes on: the one there was if the call is refused. -/
def attempt (m : Model) (a : Addition) : Model :=
  match m.add a with
  | .ok m' => m'
  | .error _ => m

/-- The model after calls on a new one. -/
def after (calls : List Addition) : Model := calls.foldl attempt empty

/-- The calls that are accepted when all are made in turn. -/
def accepted (m : Model) : List Addition → List Addition
  | [] => []
  | a :: rest =>
      match m.add a with
      | .ok m' => a :: m'.accepted rest
      | .error _ => m.accepted rest

def addedNodes (calls : List Addition) : List Node := (empty.accepted calls).filterMap Addition.node?

/-- What an accepted call does: it appends its node or its tensor. -/
theorem add_eq_ok (h : m.add a = .ok m') :
    m'.nodes = m.nodes ++ a.node?.toList ∧ m'.tensors = m.tensors ++ a.tensor?.toList := by
  cases a with
  | node n =>
      obtain ⟨_, _, _, _, rfl⟩ := addNode_eq_ok_iff.mp h
      exact ⟨rfl, (List.append_nil _).symm⟩
  | tensor id flat layout dims =>
      obtain ⟨_, t, ht, rfl⟩ := addTensor_eq_ok_iff.mp h
      have htensor : (Addition.tensor id flat layout dims).tensor? = some t := congrArg Except.toOption ht
      rw [htensor]
      exact ⟨(List.append_nil _).symm, rfl⟩

theorem attempt_of_ok (h : m.add a = .ok m') : m.attempt a = m' := by
  unfold attempt
  rw [h]

theorem attempt_of_error {e : Error} (h : m.add a = .error e) : m.attempt a = m := by
  unfold attempt
  rw [h]

theorem after_concat (calls : List Addition) (a : Addition) :
    after (calls ++ [a]) = (after calls).attempt a := List.foldl_append

theorem Reachable.attempt (hm : m.Reachable) (a : Addition) : (m.attempt a).Reachable := by
  cases h : m.add a with
  | error e => rw [attempt_of_error h]; exact hm
  | ok m' =>
      rw [attempt_of_ok h]
      cases a with
      | node n => exact .addNode hm h
      | tensor id flat layout dims => exact .addTensor hm h

theorem reachable_after (calls : List Addition) : (after calls).Reachable := by
  induction calls using List.reverseRecOn with
  | nil => exact .empty
  | append_singleton init a ih =>
      rw [after_concat]
      exact ih.attempt a

/-- A model holds what was there before and what the accepted calls brought. -/
theorem foldl_attempt (m : Model) (calls : List Addition) :
    (calls.foldl attempt m).nodes = m.nodes ++ (m.accepted calls).filterMap Addition.node? ∧
      (calls.foldl attempt m).tensors = m.tensors ++ (m.accepted calls).filterMap Addition.tensor? := by
  induction calls generalizing m with
  | nil => exact ⟨(List.append_nil _).symm, (List.append_nil _).symm⟩
  | cons a rest ih =>
      rw [List.foldl_cons, accepted]
      cases h : m.add a with
      | error e =>
          rw [attempt_of_error h]
          exact ih m
      | ok m' =>
          obtain ⟨hnodes, htensors⟩ := add_eq_ok h
          obtain ⟨ihnodes, ihtensors⟩ := ih m'
          rw [attempt_of_ok h, ihnodes, ihtensors, hnodes, htensors, List.append_assoc, List.append_assoc]
          refine ⟨?_, ?_⟩
          · cases ha : a.node? <;> simp [ha]
          · cases ha : a.tensor? <;> simp [ha]

theorem nodes_after (calls : List Addition) : (after calls).nodes = addedNodes calls :=
  (foldl_attempt empty calls).1

end Model

end NetLowering
