import Mathlib.Data.List.Perm.Basic
import NetLowering.Proofs.Leaves
import NetLowering.Proofs.Replay
import NetLowering.Proofs.StrictPadding

/-! # The order of insertion

Models with the same nodes, added in different orders, differ in the lists that everything is computed
from: the readers of a value, the sweeps, the numbers of plan nodes. In strict mode none of it matters.
Leaves and loops are about which nodes read which, and so are the nodes that can run at all; hence the
paddings and the set of scheduled nodes are the same. To lower the nodes in the other order, the plan there
is can be replayed (`composed_of_perm`). -/

namespace NetLowering

/-! ### Paddings -/

namespace Model

variable {m m' : Model} {n a : Node}

theorem mem_readers_of_perm (h : m.nodes.Perm m'.nodes) {r : Node} :
    r ∈ m.readers n ↔ r ∈ m'.readers n := by
  unfold Model.readers
  split
  · rw [mem_consumers_iff, mem_consumers_iff, h.mem_iff]
  · rfl

theorem relays_of_perm (h : m.nodes.Perm m'.nodes) : m.Relays = m'.Relays := by
  funext n t
  unfold Relays
  rw [mem_readers_of_perm h]

theorem loops_of_perm (h : m.nodes.Perm m'.nodes) : m.Loops n ↔ m'.Loops n := by
  unfold Loops
  rw [relays_of_perm h]

theorem Leaf.of_perm (h : m.nodes.Perm m'.nodes) (hleaf : m.Leaf n a) : m'.Leaf n a := by
  induction hleaf with
  | reader hr hskip hopaque => exact .reader ((mem_readers_of_perm h).mp hr) hskip hopaque
  | through hrelay _ ih => exact .through (relays_of_perm h ▸ hrelay) ih

section paddings
variable (hm : m.Consistent) (hm' : m'.Consistent) (h : m.nodes.Perm m'.nodes)
include hm hm' h

theorem conflict?_of_perm (hagree : ∀ n ∈ m.nodes, m.conflict? n = none) :
    ∀ n ∈ m'.nodes, m'.conflict? n = none := by
  rw [conflict?_eq_none_iff_leaves hm] at hagree
  refine (conflict?_eq_none_iff_leaves hm').mpr fun n hn hloops a b ha hb => ?_
  exact hagree n (h.mem_iff.mpr hn) (mt (loops_of_perm h).mp hloops) a b (ha.of_perm h.symm)
    (hb.of_perm h.symm)

theorem isCyclic_of_perm (hn : n ∈ m.nodes) :
    m'.propagation.isCyclic n.id = m.propagation.isCyclic n.id := by
  rw [Bool.eq_iff_iff, isCyclic_iff hm' (h.mem_iff.mp hn), isCyclic_iff hm hn, loops_of_perm h]

theorem outputPadding_of_perm (hagree : ∀ n ∈ m.nodes, m.conflict? n = none) (hn : n ∈ m.nodes)
    (hcyclic : m.propagation.isCyclic n.id = false) :
    m'.propagation.outputPadding n.id = m.propagation.outputPadding n.id := by
  have hagree' := conflict?_of_perm hm hm' h hagree
  have hn' := h.mem_iff.mp hn
  have hloops := (isCyclic_eq_false_iff hm hn).mp hcyclic
  have hloops' := mt (loops_of_perm h).mpr hloops
  by_cases hleaf : ∃ leaf, m.Leaf n leaf
  · obtain ⟨leaf, hleaf⟩ := hleaf
    rw [hleaf.outputPadding_eq hm hn hagree hloops,
      (hleaf.of_perm h).outputPadding_eq hm' hn' hagree' hloops']
  · have hnone : ∀ leaf, ¬m.Leaf n leaf := fun leaf hl => hleaf ⟨leaf, hl⟩
    rw [outputPadding_eq_absent hm hn hloops hnone,
      outputPadding_eq_absent hm' hn' hloops' fun leaf hl => hnone leaf (hl.of_perm h.symm)]

theorem dropped_of_perm : m.propagation.dropped.Perm m'.propagation.dropped := by
  have hcyclic : m.nodes.filter (fun n => (m.requirements n).isNone) =
      m.nodes.filter fun n => (m'.requirements n).isNone := by
    refine List.filter_congr fun n hn => ?_
    rw [Bool.eq_iff_iff, Option.isNone_iff_eq_none, Option.isNone_iff_eq_none,
      requirements_eq_none_iff hm hn, requirements_eq_none_iff hm' (h.mem_iff.mp hn), loops_of_perm h]
  unfold Propagation.dropped propagation
  dsimp only
  rw [hcyclic]
  exact (h.filter _).map _

end paddings

/-! ### Schedules -/

section schedules
variable {excluded excluded' : String → Bool} (h : m.nodes.Perm m'.nodes)
variable (hex : ∀ n ∈ m.nodes, excluded' n.id = excluded n.id)

theorem Consistent.runnable_nodup (hm : m.Consistent) : (m.runnable excluded).Nodup := by
  have hnodes : m.nodes.Nodup := hm.ids_nodup.of_map
  exact ((settle_perm [] _).nodup_iff.mpr (hnodes.filter _)).of_append_left

include h hex

theorem mem_runnable_of_perm : ∀ n ∈ m.runnable excluded, n ∈ m'.runnable excluded' := by
  refine forall_mem_of_before fun pre n post hsplit hbefore => ?_
  have hn : n ∈ m.runnable excluded := by rw [hsplit]; simp
  obtain ⟨hmem, hskip, hkept⟩ := mem_of_mem_runnable hn
  refine mem_runnable_of_inputs (h.mem_iff.mp hmem) hskip ((hex n hmem).trans hkept) fun x hx => ?_
  obtain ⟨p, hp, hxp⟩ := runnable_closedOrder pre n post hsplit x hx
  exact ⟨p, hbefore p hp, hxp⟩

theorem runnable_perm (hm : m.Consistent) (hm' : m'.Consistent) :
    (m.runnable excluded).Perm (m'.runnable excluded') := by
  have hex' : ∀ n ∈ m'.nodes, excluded n.id = excluded' n.id :=
    fun n hn => (hex n (h.mem_iff.mpr hn)).symm
  refine (List.perm_ext_iff_of_nodup hm.runnable_nodup hm'.runnable_nodup).mpr fun n => ?_
  exact ⟨mem_runnable_of_perm h hex n, mem_runnable_of_perm h.symm hex' n⟩

theorem isDeadInput_of_perm (hm : m.Consistent) (hm' : m'.Consistent) (n : Node) :
    n.isDeadInput (m'.valuesRead excluded') = n.isDeadInput (m.valuesRead excluded) := by
  have hread (x : String) : x ∈ m'.valuesRead excluded' ↔ x ∈ m.valuesRead excluded :=
    ((runnable_perm h hex hm hm').flatMap_right Node.inputs).mem_iff.symm
  rw [Bool.eq_iff_iff, Node.isDeadInput_iff, Node.isDeadInput_iff]
  simp only [hread]

theorem order_perm (hm : m.Consistent) (hm' : m'.Consistent) :
    (scheduleWithout m excluded).order.Perm (scheduleWithout m' excluded').order := by
  rw [order_eq, order_eq]
  simp only [isDeadInput_of_perm h hex hm hm']
  exact (runnable_perm h hex hm hm').filter _

theorem schedule_dropped_perm (hm : m.Consistent) (hm' : m'.Consistent) :
    (scheduleWithout m excluded).dropped.Perm (scheduleWithout m' excluded').dropped := by
  have htaken := runnable_perm h hex hm hm'
  have hall : (m.nodes.filter fun n => n.kind ≠ .skip && !excluded n.id).Perm
      (m'.nodes.filter fun n => n.kind ≠ .skip && !excluded' n.id) := by
    have hcongr : m.nodes.filter (fun n => n.kind ≠ .skip && !excluded n.id) =
        m.nodes.filter fun n => n.kind ≠ .skip && !excluded' n.id :=
      List.filter_congr fun n hn => by rw [hex n hn]
    rw [hcongr]
    exact h.filter _
  have hwaiting := ((settle_perm [] _).trans hall).trans (settle_perm [] _).symm
  have hsame := (List.perm_append_left_iff _).mp (hwaiting.trans (htaken.symm.append_right _))
  have hmissing (n : Node) : n.missing (settle [] (m'.nodes.filter fun n =>
      n.kind ≠ .skip && !excluded' n.id)).available = n.missing (settle [] (m.nodes.filter fun n =>
      n.kind ≠ .skip && !excluded n.id)).available := by
    refine List.filter_congr fun x _ => ?_
    have hmem := (htaken.flatMap_right Node.outputs).mem_iff (a := x)
    rw [settle_available, settle_available, List.nil_append, List.nil_append]
    unfold Model.runnable at hmem
    simp only [List.contains_eq_mem, hmem]
  have hdead := isDeadInput_of_perm h hex hm hm'
  unfold scheduleWithout
  dsimp only
  refine List.Perm.append ?_ ?_
  · simp only [hmissing]
    exact hsame.map _
  · refine List.Perm.map _ ?_
    unfold Model.valuesRead Model.runnable at hdead
    simp only [hdead]
    exact htaken.filter _

end schedules

end Model

/-! ### Tensors -/

theorem Model.tensor?_of_perm {m m' : Model} (hm : m.Reachable) (h : m.tensors.Perm m'.tensors)
    (id : String) : m'.tensor? id = m.tensor? id := by
  have hids := hm.tensor_ids_nodup
  have hids' := (h.map Tensor.id).nodup_iff.mp hids
  refine Option.ext fun t => ?_
  unfold Model.tensor?
  rw [Model.find?_key_eq_some_iff hids, Model.find?_key_eq_some_iff hids', h.mem_iff]

/-! ### Replays -/

/-- A model with the nodes of another in another order draws them all from its plan. -/
theorem composed_of_perm {o : Options} {m m' : Model} {p : Plan} {start final : Run} (hm : m.Consistent)
    (hm' : m'.Consistent) (hnodes : m.nodes.Perm m'.nodes) (htensor : ∀ id, m'.tensor? id = m.tensor? id)
    (hagree : ∀ n ∈ m.nodes, m.conflict? n = none) (hp : Planned o m p m.propagation start final) :
    Composed o m' (fun _ : Unit => m) (fun _ => p) fun _ => () where
  whole := hm'
  parts _ := hm
  planned _ := ⟨start, final, hp⟩
  order i := by
    rw [hp.order, List.filter_eq_self.mpr fun _ _ => decide_eq_true rfl]
    exact Model.order_perm hnodes (fun n hn => Model.isCyclic_of_perm hm hm' hnodes hn) hm hm'
  linked _ _ _ _ _ _ _ := rfl
  tensor _ id _ ht := (htensor id).trans ht
  padding n hn := by
    obtain ⟨hmem, _, hcyclic⟩ := mem_of_mem_order hn
    have hmem := hnodes.mem_iff.mpr hmem
    rw [Model.isCyclic_of_perm hm hm' hnodes hmem] at hcyclic
    exact Model.outputPadding_of_perm hm hm' hnodes hagree hmem hcyclic

/-! ### Plans -/

theorem outputsOf_perm {order order' : List Node} {t t' : Ownership} {ρ : Nat → Nat}
    (hperm : order.Perm order') (howner : ∀ n ∈ order', ∀ x ∈ n.outputs,
      t'.owner? x = (t.owner? x).map (PlanNode.renumber ρ)) :
    ((Plan.outputsOf order t).map (PlanOutput.renumber ρ)).Perm (Plan.outputsOf order' t') := by
  have hterminal : Plan.isTerminal order' = Plan.isTerminal order := by
    funext n
    have hmem (x : String) := (hperm.flatMap_right Node.inputs).mem_iff (a := x)
    unfold Plan.isTerminal
    simp only [List.contains_eq_mem, hmem]
  rw [outputsOf_eq_filterMap, outputsOf_eq_filterMap, hterminal,
    filterMap_firstOutput? fun n hn => howner n (List.mem_of_mem_filter hn)]
  exact ((hperm.filter _).filterMap _).map _

/-- The second plan is the first under other numbers: it schedules and drops the same nodes, each node
emits the same, and the outputs are the same. -/
structure Plan.Renumbered (ρ : Nat → Nat) (p p' : Plan) : Prop where
  injective : ∀ a ∈ p.nodes, ∀ b ∈ p.nodes, ρ a.id = ρ b.id → a = b
  order : p.order.Perm p'.order
  dropped : p.dropped.Perm p'.dropped
  emitted : ∀ n ∈ p.order, p'.table.emitted n.id = (p.table.emitted n.id).map (PlanNode.renumber ρ)
  nodes : (p.nodes.map (PlanNode.renumber ρ)).Perm p'.nodes
  outputs : (p.outputs.map (PlanOutput.renumber ρ)).Perm p'.outputs

section plans
variable {o : Options} {name : String} {m m' : Model} {p : Plan}

theorem exists_renumbered (hm : m.Reachable) (hm' : m'.Reachable) (hnodes : m.nodes.Perm m'.nodes)
    (htensors : m.tensors.Perm m'.tensors) (hstrict : o.strictPadding = true)
    (hreg : o.registry = .standard) (h : plan o name m = .ok p) :
    ∃ p', plan o name m' = .ok p' ∧ ∃ ρ, p.Renumbered ρ p' := by
  have hcons := hm.consistent
  have hcons' := hm'.consistent
  obtain ⟨hagree, ⟨start, final, hp⟩, _, hne, hdropped, houtputs⟩ := plan_settled h
  have hagree := hagree hstrict
  have hcomposed := composed_of_perm hcons hcons' hnodes (Model.tensor?_of_perm hm htensors) hagree hp
  have hperm : p.order.Perm m'.loweringOrder := by
    have hside := hcomposed.order ()
    rwa [List.filter_eq_self.mpr fun _ _ => decide_eq_true rfl] at hside
  have hprop' : propagate o.strictPadding m' = .ok m'.propagation :=
    propagate_eq_ok_iff.mpr ⟨fun _ => Model.conflict?_of_perm hcons hcons' hnodes hagree, rfl⟩
  obtain ⟨p', hplan', horder', hdropped', hrepeats, houtputs'⟩ :=
    hcomposed.exists_plan name hreg hprop' fun hnil => hne (List.Perm.eq_nil (hnil ▸ hperm))
  generalize numberAlong (fun _ : Unit => p) (fun _ => ()) m'.loweringOrder = ρ at hrepeats
  have hrenumber : (p.nodes.map (PlanNode.renumber (ρ ()))).Perm p'.nodes := by
    unfold Plan.nodes
    rw [hrepeats.nodes, ← Plan.nodes, hp.nodes_eq hcons, List.map_flatMap]
    exact hperm.flatMap_right _
  refine ⟨p', hplan', ρ (), ?_, ?_, ?_, ?_, hrenumber, ?_⟩
  · obtain ⟨_, _, _, hp'⟩ := plan_eq_ok hplan'
    have hnodup := (hrenumber.map PlanNode.id).nodup_iff.mpr hp'.ordered.ids_nodup
    rw [List.map_map] at hnodup
    intro a ha b hb hab
    exact List.inj_on_of_nodup_map hnodup ha hb hab
  · rw [horder']
    exact hperm
  · rw [hdropped, hdropped']
    refine (Model.dropped_of_perm hcons hcons' hnodes).append ?_
    exact Model.schedule_dropped_perm hnodes
      (fun n hn => Model.isCyclic_of_perm hcons hcons' hnodes hn) hcons hcons'
  · intro n hn
    exact hrepeats.emitted n (hperm.mem_iff.mp hn)
  · rw [houtputs, houtputs', horder']
    exact outputsOf_perm hperm hrepeats.owner

end plans

/-- Strict lowering does not depend on the order in which nodes were added: either both models have a plan
or neither has, and the plans are the same but for the numbers of plan nodes. -/
theorem strict_plan_insertion_order (o : Options) (name : String) (m m' : Model) (hm : m.Reachable)
    (hm' : m'.Reachable) (hnodes : m.nodes.Perm m'.nodes) (htensors : m.tensors.Perm m'.tensors)
    (hstrict : o.strictPadding = true) (hreg : o.registry = .standard) :
    ((∃ p, plan o name m = .ok p) ↔ ∃ p', plan o name m' = .ok p') ∧
      ∀ p p', plan o name m = .ok p → plan o name m' = .ok p' → ∃ ρ, p.Renumbered ρ p' := by
  refine ⟨⟨?_, ?_⟩, ?_⟩
  · rintro ⟨p, h⟩
    obtain ⟨p', h', _⟩ := exists_renumbered hm hm' hnodes htensors hstrict hreg h
    exact ⟨p', h'⟩
  · rintro ⟨p', h'⟩
    obtain ⟨p, h, _⟩ := exists_renumbered hm' hm hnodes.symm htensors.symm hstrict hreg h'
    exact ⟨p, h⟩
  · intro p p' h h'
    obtain ⟨p₁, h₁, hρ⟩ := exists_renumbered hm hm' hnodes htensors hstrict hreg h
    rw [h'] at h₁
    cases h₁
    exact hρ

/-- Two inputs of a model that meet again: added in reverse, they are numbered the other way round. -/
def twoImages : List Node :=
  [{ id := "left", kind := .input, outputs := ["a"], outputShapes := [⟨[4, 4, 3], .rowColumnChannel⟩] },
   { id := "bent", kind := .relu, inputs := ["a"], outputs := ["b"], inputPadding := ⟨1, .min⟩ },
   { id := "right", kind := .input, outputs := ["c"], outputShapes := [⟨[4, 4, 3], .rowColumnChannel⟩] },
   { id := "sum", kind := .plus, inputs := ["b", "c"], outputs := ["out"] }]

theorem strict_plan_twoImages : ∃ p p', plan strictOptions "net" ⟨twoImages, []⟩ = .ok p ∧
    plan strictOptions "net" ⟨twoImages.reverse, []⟩ = .ok p' ∧ ∃ ρ, p.Renumbered ρ p' := by
  have hreach : (Model.mk twoImages []).Reachable :=
    Model.reachable_of_consistent ⟨by decide, by decide, by decide, by decide⟩
  have hreach' : (Model.mk twoImages.reverse []).Reachable :=
    Model.reachable_of_consistent ⟨by decide, by decide, by decide, by decide⟩
  obtain ⟨p, hplan, _⟩ : ∃ p, plan strictOptions "net" ⟨twoImages, []⟩ = .ok p ∧
      p.order = twoImages := exists_plan_of_order (by cbv) (List.cons_ne_nil _ _)
  obtain ⟨hiff, hsame⟩ := strict_plan_insertion_order strictOptions "net" ⟨twoImages, []⟩
    ⟨twoImages.reverse, []⟩ hreach hreach' (List.reverse_perm _).symm (.refl _) rfl rfl
  obtain ⟨p', hplan'⟩ := hiff.mp ⟨p, hplan⟩
  exact ⟨p, p', hplan, hplan', hsame p p' hplan hplan'⟩

end NetLowering
