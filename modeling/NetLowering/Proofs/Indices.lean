import NetLowering.Model.Indexed
import NetLowering.Number.Interchange
import NetLowering.Proofs.Additions
import NetLowering.Proofs.Sequence

/-! # Tables of a model

An indexed model changes four tables for one addition, and gives up in between if a check fails.
`IndexedModel.Represents` says that the tables answer as the plain model does, which looks everything up in its
nodes and tensors. Every call keeps the two in step, gives the same error on both sides, and leaves all tables as
they were if it gives one (`Represents.add_of_ok`, `Represents.add_of_error`). `additions_indexed` is what that
means for a caller. -/

namespace NetLowering

/-! ### Tables -/

namespace NameTable

variable {α : Type} {name : String} {entries : List (String × α)}

theorem lookup_place (name : String) (a : α) (entries : List (String × α)) (x : String) :
    (place name a entries).lookup x = if x = name then some a else entries.lookup x := by
  induction entries with
  | nil => exact lookup_cons_eq_ite x (name, a) []
  | cons entry rest ih =>
      unfold place
      by_cases hkey : entry.1 = name
      · rw [if_pos hkey, lookup_cons_eq_ite, lookup_cons_eq_ite, hkey]
        split <;> rfl
      · rw [if_neg hkey, lookup_cons_eq_ite, lookup_cons_eq_ite, ih]
        by_cases hx : x = name
        · rw [if_pos hx, if_pos hx, if_neg (hx ▸ Ne.symm hkey)]
        · rw [if_neg hx, if_neg hx]

theorem get?_set (t : NameTable α) (name : String) (a : α) (x : String) :
    (t.set name a).get? x = if x = name then some a else t.get? x := lookup_place name a t.entries x

theorem place_of_lookup_eq_none (h : entries.lookup name = none) (a : α) :
    place name a entries = entries ++ [(name, a)] := by
  induction entries with
  | nil => rfl
  | cons entry rest ih =>
      rw [lookup_cons_eq_ite] at h
      by_cases hkey : entry.1 = name
      · simp [hkey] at h
      · rw [if_neg (Ne.symm hkey)] at h
        rw [place, if_neg hkey, ih h, List.cons_append]

end NameTable

/-! ### One more node -/

namespace Model

variable {m : Model} {n : Node}

theorem node?_concat (h : m.node? n.id = none) (id : String) :
    ({ m with nodes := m.nodes ++ [n] } : Model).node? id = if id = n.id then some n else m.node? id := by
  unfold node? at h ⊢
  rw [List.find?_append, List.find?_singleton]
  by_cases hid : id = n.id
  · rw [hid, h]
    simp
  · simp [hid, Ne.symm hid]

theorem producer?_concat (h : ∀ x ∈ n.outputs, ∀ p ∈ m.nodes, x ∉ p.outputs) (x : String) :
    ({ m with nodes := m.nodes ++ [n] } : Model).producer? x =
      if x ∈ n.outputs then some n else m.producer? x := by
  by_cases hx : x ∈ n.outputs
  · have hnone := producer?_eq_none_iff.mpr (h x hx)
    unfold producer? at hnone ⊢
    rw [List.find?_append, hnone]
    simp [hx]
  · unfold producer?
    rw [List.find?_append]
    simp [hx]

theorem consumers_concat (m : Model) (n : Node) (x : String) :
    ({ m with nodes := m.nodes ++ [n] } : Model).consumers x =
      m.consumers x ++ List.replicate (n.inputs.count x) n := by
  rw [consumers_eq, consumers_eq, List.flatMap_append, List.flatMap_singleton]

end Model

namespace IndexedModel

variable {s s' : IndexedModel} {m m' : Model} {n : Node}

/-- The tables answer as the plain model does. -/
structure Represents (s : IndexedModel) (m : Model) : Prop where
  nodes : s.nodes = m.nodes
  nodeById : ∀ id, s.nodeById.get? id = m.node? id
  producers : ∀ x, s.producers.get? x = m.producer? x
  consumers : ∀ x, s.consumers x = m.consumers x
  tensors : s.tensors.entries = m.tensors.map fun t => (t.id, t)

theorem Represents.toModel_eq (h : s.Represents m) : s.toModel = m := by
  rw [toModel, h.nodes, h.tensors, List.map_map]
  simp [Function.comp_def]

/-! ### Tensors -/

theorem Represents.get?_tensors (h : s.Represents m) (id : String) : s.tensors.get? id = m.tensor? id := by
  rw [NameTable.get?, h.tensors, Model.tensor?]
  induction m.tensors with
  | nil => rfl
  | cons t rest ih =>
      rw [List.map_cons, lookup_cons_eq_ite, List.find?_cons, ih]
      by_cases hid : id = t.id
      · simp [hid]
      · simp [hid, Ne.symm hid]

section
variable [HalfConversion] {id : String} {flat : FlatData} {layout : Layout} {dims : List Int64}

theorem Represents.addTensor_of_ok (h : s.Represents m) (hadd : m.addTensor id flat layout dims = .ok m') :
    ∃ s', (addTensor id flat layout dims).applyTo s = (.ok (), s') ∧ s'.Represents m' := by
  obtain ⟨hnew, t, ht, rfl⟩ := Model.addTensor_eq_ok_iff.mp hadd
  have hget : s.tensors.get? id = none := (h.get?_tensors id).trans hnew
  refine ⟨{ s with tensors := s.tensors.set id t }, ?_, h.nodes, h.nodeById, h.producers, h.consumers, ?_⟩
  · unfold addTensor
    rw [Edit.applyTo_get_bind, hget]
    exact Edit.applyTo_bind_of_ok (ht ▸ Edit.applyTo_lift _) _
  · have hplace : (s.tensors.set id t).entries = s.tensors.entries ++ [(id, t)] :=
      NameTable.place_of_lookup_eq_none hget t
    rw [hplace, h.tensors, List.map_append, List.map_singleton, Model.id_of_make ht]

theorem Represents.addTensor_of_error (h : s.Represents m) {e : Error}
    (hadd : m.addTensor id flat layout dims = .error e) :
    (addTensor id flat layout dims).applyTo s = (.error e, s) := by
  unfold addTensor
  unfold Model.addTensor at hadd
  rw [Edit.applyTo_get_bind, h.get?_tensors]
  cases hid : m.tensor? id with
  | some t =>
      rw [hid] at hadd
      cases hadd
      rfl
  | none =>
      rw [hid] at hadd
      cases hmake : Tensor.make id flat layout dims with
      | ok t =>
          rw [hmake] at hadd
          cases hadd
      | error e' =>
          rw [hmake] at hadd
          cases hadd
          rfl

end

/-! ### Nodes -/

/-- The checks of the outputs stop at the first value that is taken, and change nothing. -/
theorem applyTo_checkOutputs (s : IndexedModel) (n : Node) (values : List String) :
    (forM values (checkOutput n) : Edit Unit).applyTo s =
      ((values.findSome? fun value => (s.producers.get? value).map fun other => (value, other)).elim (.ok ())
        fun taken => fail (.duplicateOutput taken.1 n.id taken.2.id), s) := by
  induction values with
  | nil => rfl
  | cons value rest ih =>
      have hcheck : (checkOutput n value).applyTo s = ((s.producers.get? value).elim (.ok ())
          fun other => fail (.duplicateOutput value n.id other.id), s) := by
        unfold checkOutput
        rw [Edit.applyTo_get_bind]
        cases s.producers.get? value <;> rfl
      rw [List.forM_cons, List.findSome?_cons]
      cases hget : s.producers.get? value with
      | some other =>
          rw [hget] at hcheck
          exact Edit.applyTo_bind_of_error hcheck _
      | none =>
          rw [hget] at hcheck
          rw [Edit.applyTo_bind_of_ok hcheck, ih]
          rfl

/-- Every output is put down to the node, and no other value changes its producer. -/
theorem applyTo_recordOutputs (s : IndexedModel) (n : Node) (values : List String) :
    ∃ producers : NameTable Node,
      (forM values (recordOutput n) : Edit Unit).applyTo s = (.ok (), { s with producers := producers }) ∧
      ∀ x, producers.get? x = if x ∈ values then some n else s.producers.get? x := by
  induction values generalizing s with
  | nil => exact ⟨s.producers, rfl, fun x => by simp⟩
  | cons value rest ih =>
      obtain ⟨producers, hrun, hget⟩ := ih { s with producers := s.producers.set value n }
      refine ⟨producers, ?_, fun x => ?_⟩
      · rw [List.forM_cons]
        exact (Edit.applyTo_bind_of_ok (Edit.applyTo_modify _) _).trans hrun
      · rw [hget, NameTable.get?_set]
        by_cases hrest : x ∈ rest <;> by_cases hx : x = value <;> simp [hrest, hx]

/-- Every input has the node added to its readers, once for each time it is listed. -/
theorem applyTo_recordInputs (s : IndexedModel) (n : Node) (values : List String) :
    ∃ readers : NameTable (List Node),
      (forM values (recordInput n) : Edit Unit).applyTo s = (.ok (), { s with readers := readers }) ∧
      ∀ x, (readers.get? x).getD [] = s.consumers x ++ List.replicate (values.count x) n := by
  induction values generalizing s with
  | nil => exact ⟨s.readers, rfl, fun x => by simp [consumers]⟩
  | cons value rest ih =>
      obtain ⟨readers, hrun, hget⟩ := ih { s with readers := s.readers.set value (s.consumers value ++ [n]) }
      refine ⟨readers, ?_, fun x => ?_⟩
      · rw [List.forM_cons]
        exact (Edit.applyTo_bind_of_ok (Edit.applyTo_modify _) _).trans hrun
      · rw [hget, consumers, NameTable.get?_set, List.count_cons]
        by_cases hx : x = value
        · simp [hx, List.replicate_succ]
        · simp [hx, Ne.symm hx, consumers]

/-- An accepted node is recorded in every table, and they still answer as the plain model does. -/
theorem Represents.addNode_of_ok (h : s.Represents m) (hadd : m.addNode n = .ok m') :
    ∃ s', (addNode n).applyTo s = (.ok (), s') ∧ s'.Represents m' := by
  obtain ⟨hname, hid, hpadding, hout, rfl⟩ := Model.addNode_eq_ok_iff.mp hadd
  rw [← Model.node?_eq_none_iff] at hid
  have hcheck : (forM n.outputs (checkOutput n) : Edit Unit).applyTo s = (.ok (), s) := by
    have htaken := Model.takenOutput?_eq_none_iff.mpr hout
    rw [applyTo_checkOutputs]
    simp only [h.producers]
    rw [← Model.takenOutput?, htaken, Option.elim_none]
  obtain ⟨producers, hproducers, hproducer⟩ := applyTo_recordOutputs
    { s with nodes := s.nodes ++ [n], nodeById := s.nodeById.set n.id n } n n.outputs
  obtain ⟨readers, hreaders, hconsumers⟩ := applyTo_recordInputs
    { s with nodes := s.nodes ++ [n], nodeById := s.nodeById.set n.id n, producers := producers } n n.inputs
  refine ⟨{ s with nodes := s.nodes ++ [n], nodeById := s.nodeById.set n.id n, producers, readers }, ?_,
    congrArg (· ++ [n]) h.nodes, fun id => ?_, fun x => ?_, fun x => ?_, h.tensors⟩
  · unfold addNode
    rw [if_neg hname, Edit.applyTo_get_bind, h.nodeById, hid, if_neg (by simp), if_neg (Int64.not_lt.mpr hpadding),
      Edit.applyTo_bind_of_ok hcheck, Edit.applyTo_bind_of_ok (Edit.applyTo_modify _),
      Edit.applyTo_bind_of_ok (Edit.applyTo_modify _), Edit.applyTo_bind_of_ok hproducers, hreaders]
  · rw [NameTable.get?_set, Model.node?_concat hid, h.nodeById]
  · rw [hproducer, Model.producer?_concat hout, h.producers]
  · rw [Model.consumers_concat, ← h.consumers]
    exact hconsumers x

theorem Represents.addNode_of_error (h : s.Represents m) {e : Error} (hadd : m.addNode n = .error e) :
    (addNode n).applyTo s = (.error e, s) := by
  unfold addNode
  unfold Model.addNode at hadd
  by_cases hname : n.id = ""
  · rw [if_pos hname] at hadd ⊢
    cases hadd
    rfl
  rw [if_neg hname] at hadd ⊢
  rw [Edit.applyTo_get_bind, h.nodeById]
  cases hid : m.node? n.id with
  | some other =>
      rw [hid] at hadd
      cases hadd
      rfl
  | none =>
      rw [hid, if_neg (by simp)] at hadd
      rw [if_neg (by simp)]
      by_cases hpadding : n.inputPadding.size < 0
      · rw [if_pos hpadding] at hadd ⊢
        cases hadd
        rfl
      rw [if_neg hpadding] at hadd ⊢
      cases htaken : m.takenOutput? n with
      | none =>
          rw [htaken] at hadd
          cases hadd
      | some taken =>
          rw [htaken] at hadd
          cases hadd
          refine Edit.applyTo_bind_of_error ?_ _
          rw [applyTo_checkOutputs]
          simp only [h.producers]
          rw [← Model.takenOutput?, htaken]
          rfl

/-! ### Calls -/

section calls
variable [HalfConversion] {a : Addition}

def add : Addition → Edit Unit
  | .tensor id flat layout dims => addTensor id flat layout dims
  | .node n => addNode n

/-- What calls leave behind, made one after the other on a new model, whatever comes of them. -/
def after (calls : List Addition) : IndexedModel := calls.foldl (fun s a => ((add a).applyTo s).2) {}

/-- The calls that do not fail when all are made in turn. -/
def accepted (s : IndexedModel) : List Addition → List Addition
  | [] => []
  | a :: rest =>
      match (add a).applyTo s with
      | (.ok _, s') => a :: s'.accepted rest
      | (.error _, s') => s'.accepted rest

def addedNodes (calls : List Addition) : List Node := (accepted {} calls).filterMap Addition.node?

theorem Represents.add_of_ok (h : s.Represents m) (hadd : m.add a = .ok m') :
    ∃ s', (add a).applyTo s = (.ok (), s') ∧ s'.Represents m' := by
  cases a with
  | tensor id flat layout dims => exact h.addTensor_of_ok hadd
  | node n => exact h.addNode_of_ok hadd

theorem Represents.add_of_error (h : s.Represents m) {e : Error} (hadd : m.add a = .error e) :
    (add a).applyTo s = (.error e, s) := by
  cases a with
  | tensor id flat layout dims => exact h.addTensor_of_error hadd
  | node n => exact h.addNode_of_error hadd

/-- The indexed model and the plain one stay in step, and accept the same calls. -/
theorem Represents.foldl (h : s.Represents m) (calls : List Addition) :
    (calls.foldl (fun s a => ((add a).applyTo s).2) s).Represents (calls.foldl Model.attempt m) ∧
      s.accepted calls = m.accepted calls := by
  induction calls generalizing s m with
  | nil => exact ⟨h, rfl⟩
  | cons a rest ih =>
      rw [List.foldl_cons, List.foldl_cons, accepted, Model.accepted]
      cases hadd : m.add a with
      | ok m' =>
          obtain ⟨s', hrun, hs'⟩ := h.add_of_ok hadd
          rw [hrun, Model.attempt_of_ok hadd]
          exact ⟨(ih hs').1, congrArg (a :: ·) (ih hs').2⟩
      | error e =>
          rw [h.add_of_error hadd, Model.attempt_of_error hadd]
          exact ih h

end calls

theorem tensor_eq_ok_iff {id : String} {t : Tensor} : s.tensor id = .ok t ↔ s.tensors.get? id = some t := by
  unfold tensor
  cases s.tensors.get? id <;> simp [fail]

end IndexedModel

end NetLowering
