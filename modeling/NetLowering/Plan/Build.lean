import NetLowering.Plan.Run

/-! # Building the target graph

A `Builder` constructs the target: it adds plan nodes one by one, giving each a handle, and is told
at the end which of them are the inputs and outputs. `lower` plans first, so that a model that
cannot be lowered never reaches the builder.
-/

namespace NetLowering

/-- A builder with states `σ` and handles `π`. It sees the handle of each node it has added, by
number; a call that fails still leaves a state behind. -/
structure Builder (σ π : Type) where
  addNode : σ → PlanNode → (Nat → Option π) → σ × Except String π
  finish : σ → List PlanNode → List PlanOutput → σ × Except String Unit

/-- A plan with the handle of each of its nodes. -/
structure Built (π : Type) where
  plan : Plan
  handles : List (Nat × π)

namespace Builder

variable {σ π : Type}

/-- Adds plan nodes in order, until one fails. -/
def addAll (b : Builder σ π) (run : String) (state : σ) (handles : List (Nat × π)) :
    List PlanNode → σ × Except Error (List (Nat × π))
  | [] => (state, .ok handles)
  | p :: rest =>
      match b.addNode state p fun id => handles.lookup id with
      | (next, .ok handle) => b.addAll run next (handles ++ [(p.id, handle)]) rest
      | (next, .error text) =>
          (next, .error ((Error.of (.reported text)).within (.adding run p.name p.group)))

def build (b : Builder σ π) (run : String) (state : σ) (plan : Plan) : σ × Except Error (Built π) :=
  match b.addAll run state [] plan.nodes with
  | (next, .error e) => (next, .error e)
  | (next, .ok handles) =>
      match b.finish next plan.inputs plan.outputs with
      | (final, .ok ()) => (final, .ok ⟨plan, handles⟩)
      | (final, .error text) => (final, .error ((Error.of (.reported text)).within (.finishing run)))

/-- Lowers a model into a builder, with a record of the run. -/
def lowerTraced (b : Builder σ π) (state : σ) (o : Options) (run : String) (m : Model) :
    σ × Except Halt (Built π × Trace) :=
  match planTraced o run m with
  | .error h => (state, .error h)
  | .ok (plan, trace) =>
      match b.build run state plan with
      | (final, .ok built) => (final, .ok (built, trace))
      | (final, .error e) => (final, .error ⟨e, trace⟩)

def lower (b : Builder σ π) (state : σ) (o : Options) (run : String) (m : Model) :
    σ × Except Error (Built π) :=
  match plan o run m with
  | .error e => (state, .error e)
  | .ok p => b.build run state p

end Builder

end NetLowering
