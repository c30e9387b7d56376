import NetLowering.Dropped
import NetLowering.Model

/-! # Scheduling

A node can be lowered once all its inputs are available. `sweep` goes through the waiting nodes
once, in insertion order, and takes those that are ready, the outputs of each being available to the
next; `settle` repeats it until a sweep takes none. Input nodes nobody reads are then taken out
again.
-/

namespace NetLowering

/-- What one pass over the waiting nodes gives: the nodes taken, those that still wait, and the
values available afterwards. -/
structure Sweep where
  taken : List Node
  waiting : List Node
  available : List String

/-- Whether all inputs of a node are available. -/
def Node.isReady (n : Node) (available : List String) : Bool :=
  n.inputs.all fun x => available.contains x

/-- One pass over the waiting nodes. -/
def sweep (available : List String) : List Node → Sweep
  | [] => ⟨[], [], available⟩
  | n :: rest =>
      if n.isReady available then
        let s := sweep (available ++ n.outputs) rest
        { s with taken := n :: s.taken }
      else
        let s := sweep available rest
        { s with waiting := n :: s.waiting }

theorem sweep_length (available : List String) (nodes : List Node) :
    (sweep available nodes).taken.length + (sweep available nodes).waiting.length = nodes.length := by
  induction nodes generalizing available with
  | nil => rfl
  | cons n rest ih =>
      unfold sweep
      split
      · have := ih (available ++ n.outputs)
        simp only [List.length_cons]
        omega
      · have := ih available
        simp only [List.length_cons]
        omega

/-- Passes over the waiting nodes until one of them takes nothing. -/
def settle (available : List String) (waiting : List Node) : Sweep :=
  if (sweep available waiting).taken = [] then sweep available waiting
  else
    let later := settle (sweep available waiting).available (sweep available waiting).waiting
    { later with taken := (sweep available waiting).taken ++ later.taken }
termination_by waiting.length
decreasing_by
  have hlen := sweep_length available waiting
  have hpos := List.length_pos_iff.mpr ‹_›
  omega

/-- The nodes of a run in the order they are lowered, and those left out. -/
structure Schedule where
  order : List Node
  dropped : List Dropped

/-- The inputs of a node that are not available. -/
def Node.missing (n : Node) (available : List String) : List String :=
  n.inputs.filter fun x => !available.contains x

/-- Whether a node is an input of the model whose first output is not among the values read. -/
def Node.isDeadInput (n : Node) (read : List String) : Bool :=
  n.kind = .input && !(n.firstOutput?.any fun x => read.contains x)

/-- The schedule of the nodes of a model that are neither `skip` nodes nor excluded. -/
def scheduleWithout (m : Model) (excluded : String → Bool) : Schedule :=
  let s := settle [] (m.nodes.filter fun n => n.kind ≠ .skip && !excluded n.id)
  let read := s.taken.flatMap Node.inputs
  { order := s.taken.filter fun n => !n.isDeadInput read
    dropped :=
      (s.waiting.map fun n => ⟨n.id, n.kind, .unsatisfiableInput (n.missing s.available)⟩) ++
        (s.taken.filter fun n => n.isDeadInput read).map fun n => ⟨n.id, n.kind, .deadInput⟩ }

def schedule (m : Model) : Schedule := scheduleWithout m fun _ => false

end NetLowering
