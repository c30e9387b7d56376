import NetLowering.Model

/-! # Models with tables

A model as it is held while it is built. Beside the nodes in insertion order there are tables for what
is asked of them: the node with an id, the node that writes a value, and the nodes that read it. An
addition makes its checks and then changes the tables one after the other (`IndexedModel.addNode`). The
state is that of the last change also where an addition fails, so a check that came too late would show.
-/

namespace NetLowering

/-- Values by name, each name once. -/
structure NameTable (α : Type) where
  entries : List (String × α) := []
  distinct : (entries.map Prod.fst).Nodup := by exact List.nodup_nil

namespace NameTable

variable {α : Type}

def get? (t : NameTable α) (name : String) : Option α := t.entries.lookup name

def size (t : NameTable α) : Nat := t.entries.length

/-- Puts a value where its name stands, or last if the name is new. -/
def place (name : String) (a : α) : List (String × α) → List (String × α)
  | [] => [(name, a)]
  | entry :: rest => if entry.1 = name then (name, a) :: rest else entry :: place name a rest

theorem map_fst_place (name : String) (a : α) (entries : List (String × α)) :
    (place name a entries).map Prod.fst =
      entries.map Prod.fst ++ if name ∈ entries.map Prod.fst then [] else [name] := by
  induction entries with
  | nil => rfl
  | cons entry rest ih =>
      unfold place
      by_cases h : entry.1 = name
      · simp [h]
      · rw [if_neg h, List.map_cons, ih, List.map_cons, List.cons_append]
        simp only [List.mem_cons, Ne.symm h, false_or]

/-- Sets the value of a name. -/
def set (t : NameTable α) (name : String) (a : α) : NameTable α where
  entries := place name a t.entries
  distinct := by
    rw [map_fst_place]
    split
    · simpa using t.distinct
    · rename_i hnew
      exact List.nodup_append.mpr ⟨t.distinct, by simp, by grind⟩

end NameTable

/-- The nodes of a network with the tables that answer for them, and its tensors. -/
structure IndexedModel where
  nodes : List Node := []
  nodeById : NameTable Node := {}
  producers : NameTable Node := {}
  readers : NameTable (List Node) := {}
  tensors : NameTable Tensor := {}

/-- A change of a model that can fail. What it leaves behind is given in either case. -/
abbrev Edit (α : Type) := ExceptT Error (StateM IndexedModel) α

/-- What a change gives, and the model it leaves. -/
def Edit.applyTo {α : Type} (x : Edit α) (s : IndexedModel) : Except Error α × IndexedModel :=
  Id.run (StateT.run (ExceptT.run x) s)

namespace Edit

variable {α β : Type} {s s' : IndexedModel}

@[simp]
theorem applyTo_lift (x : Except Error α) : (liftM x : Edit α).applyTo s = (x, s) := rfl

@[simp]
theorem applyTo_modify (f : IndexedModel → IndexedModel) :
    (modify f : Edit PUnit).applyTo s = (.ok (), f s) := rfl

@[simp]
theorem applyTo_get_bind (f : IndexedModel → Edit β) : (get >>= f).applyTo s = (f s).applyTo s := rfl

theorem applyTo_bind_of_ok {x : Edit α} {a : α} (h : x.applyTo s = (.ok a, s')) (f : α → Edit β) :
    (x >>= f).applyTo s = (f a).applyTo s' := by
  unfold applyTo at h ⊢
  rw [ExceptT.run_bind, StateT.run_bind, Id.run_bind, h]

theorem applyTo_bind_of_error {x : Edit α} {e : Error} (h : x.applyTo s = (.error e, s')) (f : α → Edit β) :
    (x >>= f).applyTo s = (.error e, s') := by
  unfold applyTo at h ⊢
  rw [ExceptT.run_bind, StateT.run_bind, Id.run_bind, h]
  rfl

end Edit

namespace IndexedModel

/-! ### Lookups -/

def node (s : IndexedModel) (id : String) : Except Error Node :=
  match s.nodeById.get? id with
  | some n => .ok n
  | none => fail (.nodeNotFound id)

def producer? (s : IndexedModel) (value : String) : Option Node := s.producers.get? value

/-- The nodes that list a value among their inputs, in insertion order, each as often as it lists it. -/
def consumers (s : IndexedModel) (value : String) : List Node := (s.readers.get? value).getD []

def tensor (s : IndexedModel) (id : String) : Except Error Tensor :=
  match s.tensors.get? id with
  | some t => .ok t
  | none => fail (.tensorNotFound id)

/-- The nodes and tensors alone. -/
def toModel (s : IndexedModel) : Model := ⟨s.nodes, s.tensors.entries.map Prod.snd⟩

/-! ### Additions -/

/-- Adds a tensor under an id of its own. -/
def addTensor [HalfConversion] (id : String) (flat : FlatData) (layout : Layout) (dims : List Int64) :
    Edit Unit := do
  if ((← get).tensors.get? id).isSome then fail (.duplicateTensor id)
  else
    let t ← Tensor.make id flat layout dims
    modify fun s => { s with tensors := s.tensors.set id t }

/-- Fails if another node writes the value. -/
def checkOutput (n : Node) (value : String) : Edit Unit := do
  match (← get).producers.get? value with
  | some other => fail (.duplicateOutput value n.id other.id)
  | none => pure ()

def recordOutput (n : Node) (value : String) : Edit Unit :=
  modify fun s => { s with producers := s.producers.set value n }

def recordInput (n : Node) (value : String) : Edit Unit :=
  modify fun s => { s with readers := s.readers.set value (s.consumers value ++ [n]) }

/-- Adds a node. Its id has to be new, and no other node may produce its outputs. -/
def addNode (n : Node) : Edit Unit := do
  if n.id = "" then fail .unnamedNode
  else if ((← get).nodeById.get? n.id).isSome then fail (.duplicateNode n.id)
  else if n.inputPadding.size < 0 then fail (.negativeInputPadding n.id n.inputPadding.size)
  else
    forM n.outputs (checkOutput n)
    modify fun s => { s with nodes := s.nodes ++ [n] }
    modify fun s => { s with nodeById := s.nodeById.set n.id n }
    forM n.outputs (recordOutput n)
    forM n.inputs (recordInput n)

end IndexedModel

end NetLowering
