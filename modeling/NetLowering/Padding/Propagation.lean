import NetLowering.Dropped
import NetLowering.Model

/-! # Padding propagation

A producer writes its output with the border its readers expect, so the border has to be known
before the producer is lowered. A reader of an ordinary kind requires its own input padding; a
transparent one requires what the first of its own readers requires, and so on. `Model.requirements`
collects what the readers of a node require, or finds that the walk loops back through transparent
nodes; `propagate` settles the output padding of every node of a model.
-/

namespace NetLowering

namespace Model

/-- What a list of readers requires, in order, `skip` nodes being ignored. A transparent reader
stands for the first requirement of its own readers, or for nothing if they have none. `fresh` are
the transparent nodes that are not on the walk yet; to meet one that is no longer fresh is to loop
back, and gives `none`. -/
def requirementsOf (m : Model) (fresh : List String) : List Node → Option (List Padding)
  | [] => some []
  | reader :: rest =>
      if reader.kind = .skip then m.requirementsOf fresh rest
      else if reader.kind.isTransparent then
        if reader.id ∈ fresh then
          match m.requirementsOf (fresh.erase reader.id) (m.readers reader) with
          | none => none
          | some forwarded => (m.requirementsOf fresh rest).map (forwarded.head?.toList ++ ·)
        else none
      else (m.requirementsOf fresh rest).map (reader.inputPadding :: ·)
termination_by readers => (fresh.length, readers.length)
decreasing_by
  all_goals simp_wf
  · exact Prod.Lex.right _ (Nat.lt_succ_self _)
  · rename_i h
    have := List.length_erase_of_mem h
    have := List.length_pos_of_mem h
    exact Prod.Lex.left _ _ (by omega)
  · exact Prod.Lex.right _ (Nat.lt_succ_self _)
  · exact Prod.Lex.right _ (Nat.lt_succ_self _)

/-- The transparent nodes of a model other than `n`. -/
def transparentOthers (m : Model) (n : Node) : List String :=
  ((m.nodes.filter fun other => other.kind.isTransparent).map Node.id).erase n.id

/-- What the readers of a node require of its output, or `none` if that loops back. -/
def requirements (m : Model) (n : Node) : Option (List Padding) :=
  m.requirementsOf (m.transparentOthers n) (m.readers n)

end Model

/-- A node whose readers require different paddings: the first requirement, and the first that
differs. -/
structure PaddingConflict where
  node : Node
  first : Padding
  other : Padding

/-- The first requirement that differs from the first one. -/
def firstDifference? : List Padding → Option (Padding × Padding)
  | [] => none
  | first :: rest => (rest.find? fun p => p ≠ first).map fun other => (first, other)

/-- The padding of every node's output, the nodes for which there is none because their requirement
loops back, and the nodes whose readers disagree, each in insertion order. -/
structure Propagation where
  output : List (String × Padding) := []
  cyclic : List Node := []
  conflicts : List PaddingConflict := []

namespace Propagation

/-- The padding a node has to write around its output. -/
def outputPadding (p : Propagation) (id : String) : Padding := (p.output.lookup id).getD .absent

/-- Whether a node is out because its requirement loops back. -/
def isCyclic (p : Propagation) (id : String) : Bool := p.cyclic.any fun n => n.id = id

/-- The nodes left out, as they are reported. -/
def dropped (p : Propagation) : List Dropped :=
  p.cyclic.map fun n => ⟨n.id, n.kind, .paddingCycle⟩

/-- Settles one more node. The first requirement wins, unless `strict` makes a disagreement a
failure. -/
def visit (strict : Bool) (m : Model) (p : Propagation) (n : Node) : Except Error Propagation :=
  match m.requirements n with
  | none => .ok { p with cyclic := p.cyclic ++ [n] }
  | some required =>
      let settled := { p with output := p.output ++ [(n.id, required.head?.getD .absent)] }
      match firstDifference? required with
      | none => .ok settled
      | some (first, other) =>
          if strict then inScope (.node n.id n.kind) (fail (.ambiguousPadding first other))
          else .ok { settled with conflicts := p.conflicts ++ [⟨n, first, other⟩] }

end Propagation

/-- The output padding of every node of a model. -/
def propagate (strict : Bool) (m : Model) : Except Error Propagation :=
  m.nodes.foldlM (Propagation.visit strict m) {}

end NetLowering
