import Mathlib.Data.List.Induction
import Mathlib.Data.List.Nodup
import Mathlib.Data.List.Pairwise
import NetLowering.Model

/-! # Models reached by additions

A model is only ever built by additions, so what every accepted addition keeps holds of every model.
`Model.Reachable` says that a model comes from the empty one by accepted additions, a refused one
being no step at all, and `Model.Consistent` is what that gives: ids name nodes, and values name
their producers (`Reachable.consistent`). Nothing less would do, since any nodes that are consistent can
be added (`reachable_of_consistent`). -/

namespace NetLowering.Model

/-- The model comes from the empty one by accepted additions. -/
inductive Reachable : Model → Prop
  | empty : Reachable Model.empty
  | addTensor [HalfConversion] {m m' : Model} {id : String} {flat : FlatData} {layout : Layout}
      {dims : List Int64} : Reachable m → m.addTensor id flat layout dims = .ok m' → Reachable m'
  | addNode {m m' : Model} {n : Node} : Reachable m → m.addNode n = .ok m' → Reachable m'

/-- Ids are given and tell nodes apart, no value has two producers, and no expected border is of
negative width. -/
structure Consistent (m : Model) : Prop where
  named : ∀ n ∈ m.nodes, n.id ≠ ""
  ids_nodup : (m.nodes.map Node.id).Nodup
  outputs_disjoint : m.nodes.Pairwise fun a b => ∀ x ∈ a.outputs, x ∉ b.outputs
  padding_nonneg : ∀ n ∈ m.nodes, 0 ≤ n.inputPadding.size

/-! ### Lookups -/

/-- Among elements told apart by a key, a search for a key finds the element that has it. -/
theorem find?_key_eq_some_iff {α κ : Type} [DecidableEq κ] {key : α → κ} {xs : List α}
    (h : (xs.map key).Nodup) {id : κ} {a : α} :
    xs.find? (fun b => key b = id) = some a ↔ a ∈ xs ∧ key a = id := by
  constructor
  · intro hfind
    exact ⟨List.mem_of_find?_eq_some hfind, by simpa using List.find?_some hfind⟩
  · rintro ⟨ha, rfl⟩
    cases hfind : xs.find? fun b => key b = key a with
    | none => exact absurd (List.find?_eq_none.mp hfind a ha) (by simp)
    | some b =>
        have hkey : key b = key a := by simpa using List.find?_some hfind
        rw [List.inj_on_of_nodup_map h (List.mem_of_find?_eq_some hfind) ha hkey]

variable {m m' : Model} {n : Node}

theorem node?_eq_none_iff {id : String} : m.node? id = none ↔ id ∉ m.nodes.map Node.id := by
  unfold node?
  rw [List.find?_eq_none]
  simp

theorem tensor?_eq_none_iff {id : String} : m.tensor? id = none ↔ id ∉ m.tensors.map Tensor.id := by
  unfold tensor?
  rw [List.find?_eq_none]
  simp

theorem producer?_eq_none_iff {x : String} : m.producer? x = none ↔ ∀ p ∈ m.nodes, x ∉ p.outputs := by
  unfold producer?
  rw [List.find?_eq_none]
  simp

theorem takenOutput?_eq_none_iff :
    m.takenOutput? n = none ↔ ∀ x ∈ n.outputs, ∀ p ∈ m.nodes, x ∉ p.outputs := by
  unfold takenOutput?
  rw [List.findSome?_eq_none_iff]
  simp only [Option.map_eq_none_iff, producer?_eq_none_iff]

/-! ### Additions -/

/-- A node is accepted iff it has a new id, a border of no negative width and new outputs. -/
theorem addNode_eq_ok_iff : m.addNode n = .ok m' ↔
    n.id ≠ "" ∧ n.id ∉ m.nodes.map Node.id ∧ 0 ≤ n.inputPadding.size ∧
      (∀ x ∈ n.outputs, ∀ p ∈ m.nodes, x ∉ p.outputs) ∧ m' = { m with nodes := m.nodes ++ [n] } := by
  rw [← node?_eq_none_iff, ← takenOutput?_eq_none_iff, ← Int64.not_lt, eq_comm (a := m')]
  unfold addNode fail
  by_cases hname : n.id = ""
  · simp [hname]
  cases hid : m.node? n.id with
  | some other => simp [hname]
  | none =>
      by_cases hpad : n.inputPadding.size < 0
      · simp [hname, hpad]
      cases hout : m.takenOutput? n with
      | some taken => simp [hname, hpad]
      | none => simp [hname, hpad]

section tensors
variable [HalfConversion] {id : String} {flat : FlatData} {layout : Layout} {dims : List Int64}

/-- A tensor can be made of values that can be stored, iff the layout has an axis for each extent and there are
as many values as the positive extents multiply to. -/
theorem make_eq_ok_iff {t : Tensor} :
    Tensor.make id flat layout dims = .ok t ↔ ∃ data, flat.stored = .ok data ∧
      layout.rank? = some dims.length ∧ (∀ d ∈ dims, 0 < d) ∧
      extentProduct dims = Int64.ofNat data.size ∧ t = ⟨id, dims, layout, data⟩ := by
  have hpositive : (∀ d ∈ dims, 0 < d) ↔ dims.any (· ≤ 0) = false := by simp
  rw [hpositive]
  unfold Tensor.make fail
  cases flat.stored with
  | error e => simp [bind, Except.bind, inScope]
  | ok data =>
      by_cases hrank : layout.rank? = some dims.length
      · by_cases hsize : extentProduct dims = Int64.ofNat data.size
        · cases dims.any (· ≤ 0) <;> simp [bind, Except.bind, inScope, hrank, hsize, eq_comm]
        · cases dims.any (· ≤ 0) <;> simp [bind, Except.bind, inScope, hrank, hsize]
      · simp [bind, Except.bind, inScope, hrank]

theorem id_of_make {t : Tensor} (h : Tensor.make id flat layout dims = .ok t) : t.id = id := by
  obtain ⟨data, _, _, _, _, rfl⟩ := make_eq_ok_iff.mp h
  rfl

/-- A tensor is accepted iff its id is new and it can be made at all. -/
theorem addTensor_eq_ok_iff :
    m.addTensor id flat layout dims = .ok m' ↔ m.tensor? id = none ∧
      ∃ t, Tensor.make id flat layout dims = .ok t ∧ m' = { m with tensors := m.tensors ++ [t] } := by
  unfold addTensor
  cases hid : m.tensor? id with
  | some other => simp [fail]
  | none => cases Tensor.make id flat layout dims <;> simp [bind, Except.bind, eq_comm]

theorem addTensor_eq_ok (h : m.addTensor id flat layout dims = .ok m') :
    m.tensor? id = none ∧ ∃ t : Tensor, t.id = id ∧ m' = { m with tensors := m.tensors ++ [t] } := by
  obtain ⟨hnew, t, ht, rfl⟩ := addTensor_eq_ok_iff.mp h
  exact ⟨hnew, t, id_of_make ht, rfl⟩

theorem addTensor_nodes (h : m.addTensor id flat layout dims = .ok m') : m'.nodes = m.nodes := by
  obtain ⟨_, t, _, rfl⟩ := addTensor_eq_ok h
  rfl

end tensors

theorem consistent_empty : Consistent Model.empty := by
  constructor <;> simp [Model.empty]

theorem Consistent.addNode (hm : m.Consistent) (h : m.addNode n = .ok m') : m'.Consistent := by
  obtain ⟨hname, hid, hpad, hout, rfl⟩ := addNode_eq_ok_iff.mp h
  refine ⟨?_, ?_, ?_, ?_⟩
  · intro a ha
    rcases List.mem_append.mp ha with ha | ha
    · exact hm.named a ha
    · rw [List.mem_singleton.mp ha]; exact hname
  · rw [List.map_append, List.nodup_append]
    refine ⟨hm.ids_nodup, by simp, ?_⟩
    intro a ha b hb heq
    rw [List.map_singleton, List.mem_singleton] at hb
    exact hid (by rw [← hb, ← heq]; exact ha)
  · rw [List.pairwise_append]
    refine ⟨hm.outputs_disjoint, List.pairwise_singleton _ _, ?_⟩
    intro a ha b hb x hxa hxb
    rw [List.mem_singleton.mp hb] at hxb
    exact hout x hxb a ha hxa
  · intro a ha
    rcases List.mem_append.mp ha with ha | ha
    · exact hm.padding_nonneg a ha
    · rw [List.mem_singleton.mp ha]; exact hpad

theorem Consistent.of_nodes_eq (hm : m.Consistent) (h : m'.nodes = m.nodes) : m'.Consistent := by
  refine ⟨?_, ?_, ?_, ?_⟩ <;> rw [h]
  · exact hm.named
  · exact hm.ids_nodup
  · exact hm.outputs_disjoint
  · exact hm.padding_nonneg

/-- Every model that can be built is consistent. -/
theorem Reachable.consistent (h : m.Reachable) : m.Consistent := by
  induction h with
  | empty => exact consistent_empty
  | addTensor _ hadd ih => exact ih.of_nodes_eq (addTensor_nodes hadd)
  | addNode _ hadd ih => exact ih.addNode hadd

theorem nodup_tensor_ids_concat_iff {t : Tensor} : ((m.tensors ++ [t]).map Tensor.id).Nodup ↔
    m.tensor? t.id = none ∧ (m.tensors.map Tensor.id).Nodup := by
  rw [tensor?_eq_none_iff, List.map_append, List.map_singleton, List.nodup_middle, List.append_nil,
    List.nodup_cons]

theorem Reachable.tensor_ids_nodup (h : m.Reachable) : (m.tensors.map Tensor.id).Nodup := by
  induction h with
  | empty => exact List.nodup_nil
  | addTensor _ hadd ih =>
      obtain ⟨hnew, t, rfl, rfl⟩ := addTensor_eq_ok hadd
      exact nodup_tensor_ids_concat_iff.mpr ⟨hnew, ih⟩
  | addNode _ hadd ih =>
      obtain ⟨_, _, _, _, rfl⟩ := addNode_eq_ok_iff.mp hadd
      exact ih

/-- The tensors can be added without the nodes. -/
theorem Reachable.tensors (h : m.Reachable) : Reachable ⟨[], m.tensors⟩ := by
  induction h with
  | empty => exact .empty
  | addTensor _ hadd ih =>
      obtain ⟨hnew, t, ht, rfl⟩ := addTensor_eq_ok_iff.mp hadd
      exact .addTensor ih (addTensor_eq_ok_iff.mpr ⟨hnew, t, ht, rfl⟩)
  | addNode _ hadd ih =>
      obtain ⟨_, _, _, _, rfl⟩ := addNode_eq_ok_iff.mp hadd
      exact ih

theorem addNode_of_consistent (h : Consistent { m with nodes := m.nodes ++ [n] }) :
    m.addNode n = .ok { m with nodes := m.nodes ++ [n] } := by
  obtain ⟨hnamed, hids, hdisjoint, hnonneg⟩ := h
  have hn : n ∈ m.nodes ++ [n] := List.mem_append_right _ (List.mem_singleton_self n)
  rw [List.map_append, List.nodup_append] at hids
  rw [List.pairwise_append] at hdisjoint
  refine addNode_eq_ok_iff.mpr ⟨hnamed n hn, ?_, hnonneg n hn, ?_, rfl⟩
  · intro hid
    exact hids.2.2 _ hid _ (List.mem_singleton_self _) rfl
  · intro x hx a ha hxa
    exact hdisjoint.2.2 a ha n (List.mem_singleton_self n) x hxa hx

theorem Consistent.of_append {nodes more : List Node} {tensors : List Tensor}
    (h : Consistent ⟨nodes ++ more, tensors⟩) : Consistent ⟨nodes, tensors⟩ := by
  obtain ⟨hnamed, hids, hdisjoint, hnonneg⟩ := h
  rw [List.map_append] at hids
  exact ⟨fun a ha => hnamed a (List.mem_append_left _ ha), hids.of_append_left,
    (List.pairwise_append.mp hdisjoint).1, fun a ha => hnonneg a (List.mem_append_left _ ha)⟩

/-- Consistent nodes can be added one by one to tensors that can be. -/
theorem Reachable.add_nodes {nodes : List Node} {tensors : List Tensor} (ht : Reachable ⟨[], tensors⟩)
    (h : Consistent ⟨nodes, tensors⟩) : Reachable ⟨nodes, tensors⟩ := by
  induction nodes using List.reverseRecOn with
  | nil => exact ht
  | append_singleton init n ih => exact .addNode (ih h.of_append) (addNode_of_consistent h)

theorem reachable_of_consistent {nodes : List Node} (h : Consistent ⟨nodes, []⟩) :
    Reachable ⟨nodes, []⟩ := .add_nodes .empty h

/-! ### What names stand for -/

namespace Consistent

theorem eq_of_id_eq (hm : m.Consistent) {a b : Node} (ha : a ∈ m.nodes) (hb : b ∈ m.nodes)
    (h : a.id = b.id) : a = b := List.inj_on_of_nodup_map hm.ids_nodup ha hb h

theorem eq_of_mem_outputs (hm : m.Consistent) {a b : Node} (ha : a ∈ m.nodes) (hb : b ∈ m.nodes)
    {x : String} (hxa : x ∈ a.outputs) (hxb : x ∈ b.outputs) : a = b := by
  by_contra hne
  have : Std.Symm fun a b : Node => ∀ x ∈ a.outputs, x ∉ b.outputs :=
    ⟨fun a b hab y hyb hya => hab y hya hyb⟩
  exact hm.outputs_disjoint.forall ha hb hne x hxa hxb

theorem producer?_eq_some_iff (hm : m.Consistent) {x : String} :
    m.producer? x = some n ↔ n ∈ m.nodes ∧ x ∈ n.outputs := by
  constructor
  · intro h
    exact ⟨List.mem_of_find?_eq_some h, by simpa using List.find?_some h⟩
  · rintro ⟨hn, hx⟩
    cases hp : m.producer? x with
    | none => exact absurd hx (producer?_eq_none_iff.mp hp n hn)
    | some p =>
        have hxp : x ∈ p.outputs := by simpa using List.find?_some hp
        rw [hm.eq_of_mem_outputs (List.mem_of_find?_eq_some hp) hn hxp hx]

end Consistent

theorem consumers_eq (m : Model) (z : String) :
    m.consumers z = m.nodes.flatMap fun n => List.replicate (n.inputs.count z) n := by
  unfold consumers
  refine List.flatMap_congr fun n _ => ?_
  rw [List.map_const', List.count, List.countP_eq_length_filter]
  congr 2

theorem mem_consumers_iff {x : String} : n ∈ m.consumers x ↔ n ∈ m.nodes ∧ x ∈ n.inputs := by
  unfold consumers
  simp only [List.mem_flatMap, List.mem_map, List.mem_filter, decide_eq_true_eq]
  constructor
  · rintro ⟨a, ha, y, ⟨hy, rfl⟩, rfl⟩
    exact ⟨ha, hy⟩
  · rintro ⟨hn, hx⟩
    exact ⟨n, hn, x, ⟨hx, rfl⟩, rfl⟩

end NetLowering.Model
