import NetLowering.Plan.Event

/-! # Lowering a model

`plan` lowers a model: it settles the paddings, schedules the nodes, and runs for each node the
block of its kind. `planTraced` is the same with a record of what happened, also when the run fails.
-/

namespace NetLowering

/-- A question asked by a scripted converter while lowering a node. -/
structure Probe where
  node : String
  converter : String
  exchange : Exchange

/-- The record of a run. -/
structure Trace where
  events : List Event := []
  probes : List Probe := []

def Trace.note (t : Trace) (e : Event) : Trace := { t with events := t.events ++ [e] }

/-- The record with the questions of a converter. -/
def Trace.ask (t : Trace) (node converter : String) (exchanges : List Exchange) : Trace :=
  { t with probes := t.probes ++ exchanges.map fun e => ⟨node, converter, e⟩ }

/-- A failed run: why, and what happened before. -/
structure Halt where
  error : Error
  trace : Trace

/-- The state of a run: who owns what, and the record. -/
structure Run where
  table : Ownership := {}
  trace : Trace := {}

/-! ### Blocks -/

/-- A converter with its place in a block, adapters not counting. -/
structure Element where
  converter : Converter
  isFirst : Bool
  isLast : Bool

/-- The places of the converters of a block; `begun` says whether one that counts came before. -/
def Block.elements (begun : Bool) : Block → List Element
  | [] => []
  | c :: rest =>
      ⟨c, !begun && !c.adapter, !c.adapter && rest.all Converter.adapter⟩ ::
        Block.elements (begun || !c.adapter) rest

/-- The converters of a block that apply to the node of a context. -/
def Block.applicable (c : Context) : Block → Except Error Block
  | [] => .ok []
  | cv :: rest => do
      let able ← cv.canConvert c.node
      let others ← Block.applicable c rest
      .ok (if able && cv.condition.all (fun condition => condition.holds c) then cv :: others else others)

/-- A block under way: the state of the run, the last plan node the block emitted, and the one its
node is forwarded to. -/
structure BlockRun where
  run : Run
  previous : Option PlanNode := none
  forwarded : Option PlanNode := none

/-- Puts a failure in the scope of a node, with the record so far. -/
def haltAt {α : Type} (n : Node) (trace : Trace) (e : Error) : Except Halt α :=
  .error ⟨e.within (.node n.id n.kind), trace⟩

def BlockRun.step (c : Context) (s : BlockRun) (e : Element) : Except Halt BlockRun :=
  let here : Context :=
    { c with table := s.run.table, isFirst := e.isFirst, isLast := e.isLast, previous := s.previous }
  let name := e.converter.name
  let (exchanges, result) := e.converter.action.convert here
  let trace := s.run.trace.ask c.node.id name exchanges
  match result with
  | .error err => haltAt c.node trace (err.within (.converter name))
  | .ok outcome =>
      let forwarded := outcome.forward <|> s.forwarded
      match outcome.emit with
      | none =>
          .ok { run := { s.run with trace := trace.note (.silent c.node name) }
                previous := s.previous
                forwarded }
      | some primitive =>
          let p : PlanNode := ⟨s.run.table.nextId, c.node.id, name, primitive⟩
          .ok { run := ⟨s.run.table.emit c.node p, trace.note (.emitted c.node p)⟩
                previous := some p
                forwarded }

/-- The run after a block: a node that emitted nothing has to be forwarded. -/
def BlockRun.finish (s : BlockRun) (n : Node) : Except Halt Run :=
  match s.previous, s.forwarded with
  | some _, _ => .ok s.run
  | none, some p => .ok ⟨s.run.table.own n p, s.run.trace.note (.elided n p)⟩
  | none, none => haltAt n s.run.trace (.of .nothingProduced)

/-- The context in which the block of a node starts. -/
def Run.context (o : Options) (m : Model) (paddings : Propagation) (r : Run) (n : Node) : Context :=
  { node := n
    model := m
    options := o
    outputPadding := paddings.outputPadding n.id
    table := r.table }

def Run.lowerNode (o : Options) (m : Model) (paddings : Propagation) (r : Run) (n : Node) :
    Except Halt Run :=
  let c := r.context o m paddings n
  match o.registry.lookup n.kind >>= Block.applicable c with
  | .error e => haltAt n r.trace e
  | .ok block => do
      let s ← (Block.elements false block).foldlM (BlockRun.step c) { run := r }
      s.finish n

/-! ### Models -/

/-- The record of a run before the first node is lowered. -/
def openingEvents (paddings : Propagation) (dropped : List Dropped) : List Event :=
  paddings.conflicts.map .conflict ++ (if dropped.isEmpty then [] else [.ignored dropped])

/-- Lowers a model, with a record of the run. The run is called `run` in messages. -/
def planTraced (o : Options) (run : String) (m : Model) : Except Halt (Plan × Trace) :=
  match propagate o.strictPadding m with
  | .error e => .error ⟨e, {}⟩
  | .ok paddings =>
      let s := scheduleWithout m paddings.isCyclic
      let dropped := paddings.dropped ++ s.dropped
      let opening : Trace := { events := openingEvents paddings dropped }
      if s.order.isEmpty then .error ⟨.of (.nothingScheduled run m.nodes.length), opening⟩
      else do
        let r ← s.order.foldlM (Run.lowerNode o m paddings) { trace := opening.note (.ordered s.order) }
        let plan : Plan :=
          { order := s.order, dropped, table := r.table, outputs := Plan.outputsOf s.order r.table }
        .ok (plan, r.trace.note (.mapped plan.report))

def plan (o : Options) (run : String) (m : Model) : Except Error Plan :=
  match planTraced o run m with
  | .ok (p, _) => .ok p
  | .error h => .error h.error

end NetLowering
