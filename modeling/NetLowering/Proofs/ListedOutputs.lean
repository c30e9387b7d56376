import NetLowering.Number.Interchange
import NetLowering.Proofs.Additions

/-! # Outputs listed once

An addition compares the outputs of its node with those of the nodes that are there, so no two nodes of a model
share an output. It does not compare them with each other: a node that lists an output twice is accepted. Hence a
model lists each output once iff each node added to it does (`outputs_listed_once_iff`), and a value is refused
only if it was listed before the call. -/

namespace NetLowering.Model

/-- The outputs of all nodes, each as often as it is listed. -/
def listedOutputs (m : Model) : List String := m.nodes.flatMap Node.outputs

/-- The model refuses the node because a name is taken. -/
def RefusesTaken (m : Model) (n : Node) : Prop := ∃ e, m.addNode n = .error e ∧ e.class? = some .duplicateId

variable {m m' : Model} {n : Node}

/-! ### One call -/

theorem mem_listedOutputs {x : String} : x ∈ m.listedOutputs ↔ ∃ k ∈ m.nodes, x ∈ k.outputs := List.mem_flatMap

theorem takenOutput?_isSome_iff :
    (m.takenOutput? n).isSome = true ↔ ∃ x ∈ n.outputs, x ∈ m.listedOutputs := by
  rw [← not_iff_not, Bool.not_eq_true, Option.isSome_eq_false_iff, Option.isNone_iff_eq_none,
    takenOutput?_eq_none_iff]
  simp only [mem_listedOutputs, not_exists, not_and]

/-- A name is found taken if the id of the node is, or else one of its outputs. Whether the node is named and
what border it expects is looked at before. -/
theorem refusesTaken_iff : m.RefusesTaken n ↔ n.id ≠ "" ∧ (n.id ∈ m.nodes.map Node.id ∨
    0 ≤ n.inputPadding.size ∧ ∃ x ∈ n.outputs, x ∈ m.listedOutputs) := by
  have hid : n.id ∈ m.nodes.map Node.id ↔ (m.node? n.id).isSome = true := by
    rw [← not_iff_not, ← node?_eq_none_iff, Bool.not_eq_true, Option.isSome_eq_false_iff,
      Option.isNone_iff_eq_none]
  rw [hid, ← takenOutput?_isSome_iff, ← Int64.not_lt]
  unfold RefusesTaken addNode fail
  by_cases hname : n.id = ""
  · simp [hname, Error.class?, Error.of, Cause.class?]
  cases m.node? n.id with
  | some other => simp [hname, Error.class?, Error.of, Cause.class?]
  | none =>
      by_cases hpadding : n.inputPadding.size < 0
      · simp [hname, hpadding, Error.class?, Error.of, Cause.class?]
      cases m.takenOutput? n with
      | none => simp [hname, hpadding]
      | some taken => simp [hname, hpadding, Error.class?, Error.of, Cause.class?]

theorem listedOutputs_addNode (h : m.addNode n = .ok m') :
    m'.listedOutputs = m.listedOutputs ++ n.outputs ∧ m.listedOutputs.Disjoint n.outputs := by
  obtain ⟨_, _, _, hnew, rfl⟩ := addNode_eq_ok_iff.mp h
  refine ⟨?_, fun x hlisted hx => ?_⟩
  · show (m.nodes ++ [n]).flatMap Node.outputs = _
    rw [List.flatMap_append, List.flatMap_singleton]
    rfl
  · obtain ⟨k, hk, hxk⟩ := mem_listedOutputs.mp hlisted
    exact hnew x hx k hk hxk

/-! ### Any number of calls -/

/-- What is listed twice is listed twice by one node. -/
theorem Consistent.listedOutputs_nodup_iff (hm : m.Consistent) :
    m.listedOutputs.Nodup ↔ ∀ n ∈ m.nodes, n.outputs.Nodup := by
  unfold listedOutputs
  rw [List.nodup_flatMap]
  refine and_iff_left (hm.outputs_disjoint.imp fun h x hxa hxb => ?_)
  exact h x hxa hxb

/-- After any calls on a new model no output is listed twice iff no node that was accepted lists one twice. Of
the next node the id and the outputs are compared with those of the nodes that were accepted. It is refused if one
of them is taken, and leaves the model as it was; otherwise its outputs are listed, as often as it does. -/
theorem outputs_listed_once_iff [HalfConversion] (calls : List Addition) :
    ((after calls).listedOutputs.Nodup ↔ ∀ n ∈ addedNodes calls, n.outputs.Nodup) ∧
      ∀ n, ((after calls).RefusesTaken n ↔ n.id ≠ "" ∧ (n.id ∈ (addedNodes calls).map Node.id ∨
          0 ≤ n.inputPadding.size ∧ ∃ x ∈ n.outputs, x ∈ (after calls).listedOutputs)) ∧
        (∀ e, (after calls).addNode n = .error e → after (calls ++ [.node n]) = after calls) ∧
        ∀ m', (after calls).addNode n = .ok m' → after (calls ++ [.node n]) = m' ∧
          m'.listedOutputs = (after calls).listedOutputs ++ n.outputs ∧
          (m'.listedOutputs.Nodup ↔ (after calls).listedOutputs.Nodup ∧ n.outputs.Nodup) := by
  have hcons := (reachable_after calls).consistent
  rw [← nodes_after calls]
  refine ⟨hcons.listedOutputs_nodup_iff, fun n => ⟨refusesTaken_iff, fun e h => ?_, fun m' h => ?_⟩⟩
  · rw [after_concat, attempt_of_error (a := .node n) h]
  · obtain ⟨hlisted, hdisjoint⟩ := listedOutputs_addNode h
    refine ⟨by rw [after_concat, attempt_of_ok (a := .node n) h], hlisted, ?_⟩
    rw [hlisted, List.nodup_append']
    exact ⟨fun hall => ⟨hall.1, hall.2.1⟩, fun hall => ⟨hall.1, hall.2, hdisjoint⟩⟩

/-- A node that lists an output twice, and another that lists the same output. -/
def twinOutputs : List Addition :=
  [.node { id := "twins", kind := .input, outputs := ["a", "a"] },
   .node { id := "late", kind := .input, outputs := ["b", "a"] }]

theorem outputs_listed_twice_twinOutputs : (after twinOutputs).listedOutputs = ["a", "a"] ∧
    ¬ (after twinOutputs).listedOutputs.Nodup ∧
    (after (twinOutputs.take 1)).RefusesTaken { id := "late", kind := .input, outputs := ["b", "a"] } := by
  refine ⟨by decide, ?_, ?_⟩
  · rw [(outputs_listed_once_iff twinOutputs).1]
    decide
  · refine (((outputs_listed_once_iff (twinOutputs.take 1)).2 _).1).mpr ?_
    decide

end NetLowering.Model
