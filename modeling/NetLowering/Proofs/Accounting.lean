import NetLowering.Proofs.InsertionOrder
import NetLowering.Proofs.Resolution

/-! # Accounting for nodes

Lowering splits the nodes of a model three times: those whose padding loops back are set aside, the sweeps
leave some waiting, and inputs nobody reads are taken out again. No node is lost or repeated on the way
(`order_dropped_perm`). What the sweeps take is the least set of nodes that has every node whose inputs it
produces (`isLeast_runnable`), so the reason given for a node can be told from the nodes and their values
alone (`Plan.AccountsFor`). -/

namespace NetLowering

/-! ### The least self-sufficient set -/

namespace Model

variable {m : Model} {excluded : String → Bool} {n : Node}

theorem mem_candidates_iff :
    n ∈ m.candidates excluded ↔ n ∈ m.nodes ∧ n.kind ≠ .skip ∧ excluded n.id = false := by
  simp [candidates, List.mem_filter]

/-- A set of candidates that has every candidate whose inputs are all outputs of its nodes. -/
structure SelfSufficient (m : Model) (excluded : String → Bool) (s : Set Node) : Prop where
  candidates : ∀ n ∈ s, n ∈ m.candidates excluded
  closed : ∀ n ∈ m.candidates excluded, (∀ x ∈ n.inputs, ∃ k ∈ s, x ∈ k.outputs) → n ∈ s

theorem isLeast_runnable :
    IsLeast {s | m.SelfSufficient excluded s} {n | n ∈ m.runnable excluded} := by
  refine ⟨⟨?_, ?_⟩, ?_⟩
  · intro n hn
    exact mem_candidates_iff.mpr (mem_of_mem_runnable hn)
  · intro n hn hinputs
    obtain ⟨hmem, hskip, hkept⟩ := mem_candidates_iff.mp hn
    exact mem_runnable_of_inputs hmem hskip hkept hinputs
  · -- a node is taken after the producers of its inputs, which are in any such set by then
    intro s hs
    refine forall_mem_of_before fun pre n post hsplit hbefore => ?_
    have hn : n ∈ m.runnable excluded := by rw [hsplit]; simp
    apply hs.closed n (mem_candidates_iff.mpr (mem_of_mem_runnable hn))
    intro x hx
    obtain ⟨k, hk, hxk⟩ := runnable_closedOrder pre n post hsplit x hx
    exact ⟨k, hbefore k hk, hxk⟩

/-! ### What the sweeps leave -/

/-- The candidates that the sweeps never take. -/
def stranded (m : Model) (excluded : String → Bool) : List Node :=
  (settle [] (m.candidates excluded)).waiting

theorem runnable_stranded_perm :
    (m.runnable excluded ++ m.stranded excluded).Perm (m.candidates excluded) := settle_perm [] _

theorem Consistent.candidate_ids_nodup (hm : m.Consistent) :
    ((m.candidates excluded).map Node.id).Nodup :=
  hm.ids_nodup.sublist (List.filter_sublist.map _)

theorem mem_stranded_iff (hm : m.Consistent) :
    n ∈ m.stranded excluded ↔ n ∈ m.candidates excluded ∧ n ∉ m.runnable excluded :=
  mem_right_iff_of_perm_append runnable_stranded_perm hm.candidate_ids_nodup.of_map

theorem mem_nodes_of_stranded (hm : m.Consistent) (hn : n ∈ m.stranded excluded) : n ∈ m.nodes :=
  (mem_candidates_iff.mp ((mem_stranded_iff hm).mp hn).1).1

/-- The values that a node lacks are the inputs that no runnable node has as an output. -/
theorem mem_missing_iff {x : String} :
    x ∈ n.missing (settle [] (m.candidates excluded)).available ↔
      x ∈ n.inputs ∧ ∀ k ∈ m.runnable excluded, x ∉ k.outputs := by
  rw [settle_available, List.nil_append]
  unfold Node.missing Model.runnable
  simp [List.mem_filter, candidates]

end Model

/-! ### Reasons -/

/-- An input of the model whose first output, if it has any, is read by none of the nodes in `live`. -/
def Node.Unread (n : Node) (live : Set Node) : Prop :=
  n.kind = .input ∧ ∀ x, n.outputs.head? = some x → ∀ k ∈ live, x ∉ k.inputs

theorem Node.unread_iff {m : Model} {excluded : String → Bool} {n : Node} :
    n.Unread {k | k ∈ m.runnable excluded} ↔ n.isDeadInput (m.valuesRead excluded) = true := by
  rw [Node.isDeadInput_iff]
  unfold Node.Unread Model.valuesRead
  simp

namespace Plan

/-- The plan reports a node as left out, for a reason. -/
def LeavesOut (p : Plan) (n : Node) (reason : DropReason) : Prop := ⟨n.id, n.kind, reason⟩ ∈ p.dropped

/-- What becomes of each node of a model in a plan, by whether its padding loops back (`cyclic`) and
whether it can run at all (`live`). -/
structure AccountsFor (p : Plan) (m : Model) (cyclic : String → Bool) (live : Set Node) : Prop where
  nodup : (p.order.map Node.id ++ p.dropped.map Dropped.id).Nodup
  once : ∀ n ∈ m.nodes, n.kind ≠ .skip →
    (p.order.map Node.id ++ p.dropped.map Dropped.id).count n.id = 1
  reported : ∀ d ∈ p.dropped, ∃ n ∈ m.nodes, d = ⟨n.id, n.kind, d.reason⟩
  skipped : ∀ n ∈ m.nodes, n.kind = .skip →
    n ∉ p.order ∧ ∀ reason, p.LeavesOut n reason → reason = .paddingCycle
  scheduled : ∀ n, n ∈ p.order ↔ n ∈ live ∧ ¬n.Unread live
  paddingCycle : ∀ n ∈ m.nodes, p.LeavesOut n .paddingCycle ↔ cyclic n.id = true
  unsatisfiable : ∀ n ∈ m.nodes, n.kind ≠ .skip → cyclic n.id = false →
    ((∃ missing, p.LeavesOut n (.unsatisfiableInput missing)) ↔ n ∉ live)
  missing : ∀ n ∈ m.nodes, ∀ missing, p.LeavesOut n (.unsatisfiableInput missing) →
    ∀ x, x ∈ missing ↔ x ∈ n.inputs ∧ ∀ k ∈ live, x ∉ k.outputs
  deadInput : ∀ n ∈ m.nodes, p.LeavesOut n .deadInput ↔ n ∈ live ∧ n.Unread live

end Plan

namespace Model

variable {m : Model} {excluded : String → Bool} {n : Node} {reason : DropReason}

/-- The runnable nodes that are left out because nobody reads them. -/
def deadInputs (m : Model) (excluded : String → Bool) : List Node :=
  (m.runnable excluded).filter fun n => n.isDeadInput (m.valuesRead excluded)

theorem mem_deadInputs_iff : n ∈ m.deadInputs excluded ↔
    n ∈ m.runnable excluded ∧ n.Unread {k | k ∈ m.runnable excluded} := by
  rw [deadInputs, List.mem_filter, Node.unread_iff]

theorem mem_nodes_of_dead (hn : n ∈ m.deadInputs excluded) : n ∈ m.nodes :=
  (mem_of_mem_runnable (mem_deadInputs_iff.mp hn).1).1

theorem mem_propagation_cyclic_iff (hm : m.Consistent) :
    n ∈ m.propagation.cyclic ↔ n ∈ m.nodes ∧ m.propagation.isCyclic n.id = true := by
  constructor
  · intro hn
    have hmem : n ∈ m.nodes := (List.mem_filter.mp hn).1
    rw [isCyclic_propagation hm hmem]
    exact ⟨hmem, (List.mem_filter.mp hn).2⟩
  · rintro ⟨hmem, hcyclic⟩
    rw [isCyclic_propagation hm hmem] at hcyclic
    exact List.mem_filter.mpr ⟨hmem, hcyclic⟩

theorem mem_report_iff (hm : m.Consistent) {nodes : List Node} (hnodes : ∀ k ∈ nodes, k ∈ m.nodes)
    (hn : n ∈ m.nodes) {f : Node → DropReason} :
    ⟨n.id, n.kind, reason⟩ ∈ nodes.map (fun k => Dropped.mk k.id k.kind (f k)) ↔
      n ∈ nodes ∧ reason = f n := by
  rw [List.mem_map]
  constructor
  · rintro ⟨k, hk, heq⟩
    rw [Dropped.mk.injEq] at heq
    obtain rfl := hm.eq_of_id_eq (hnodes k hk) hn heq.1
    exact ⟨hk, heq.2.2.symm⟩
  · rintro ⟨hk, rfl⟩
    exact ⟨n, hk, rfl⟩

end Model

section plans
variable {o : Options} {name : String} {m : Model} {p : Plan} {n : Node} {reason : DropReason}

theorem plan_dropped (h : plan o name m = .ok p) :
    p.dropped = (m.propagation.cyclic.map fun n => ⟨n.id, n.kind, .paddingCycle⟩) ++
      (((m.stranded m.propagation.isCyclic).map fun n => ⟨n.id, n.kind, .unsatisfiableInput
          (n.missing (settle [] (m.candidates m.propagation.isCyclic)).available)⟩) ++
        (m.deadInputs m.propagation.isCyclic).map fun n => ⟨n.id, n.kind, .deadInput⟩) := by
  obtain ⟨_, _, _, _, hdropped, _⟩ := plan_settled h
  rw [hdropped]
  rfl

/-- Scheduled and dropped nodes together are the candidates and the nodes that loop back. -/
theorem order_dropped_perm (h : plan o name m = .ok p) :
    (p.order.map Node.id ++ p.dropped.map Dropped.id).Perm
      ((m.candidates m.propagation.isCyclic ++ m.propagation.cyclic).map Node.id) := by
  obtain ⟨_, _, horder, _⟩ := plan_settled h
  have hids : p.dropped.map Dropped.id = (m.propagation.cyclic ++
      (m.stranded m.propagation.isCyclic ++ m.deadInputs m.propagation.isCyclic)).map Node.id := by
    rw [plan_dropped h]
    simp [Function.comp_def]
  rw [hids, horder, ← List.map_append]
  refine List.Perm.map _ ?_
  have htaken : (m.deadInputs m.propagation.isCyclic ++ m.loweringOrder).Perm
      (m.runnable m.propagation.isCyclic) := List.filter_append_perm _ _
  have hall := (htaken.append_right _).trans Model.runnable_stranded_perm
  refine List.Perm.trans ?_ (hall.append_right m.propagation.cyclic)
  refine List.perm_append_comm.trans ?_
  rw [List.append_assoc, List.append_assoc]
  refine List.perm_append_comm.trans (List.Perm.append_right _ ?_)
  exact List.perm_append_comm

theorem candidates_cyclic_ids_nodup (hm : m.Consistent) :
    ((m.candidates m.propagation.isCyclic ++ m.propagation.cyclic).map Node.id).Nodup := by
  rw [List.map_append, List.nodup_append]
  refine ⟨hm.candidate_ids_nodup, hm.ids_nodup.sublist (List.filter_sublist.map _), ?_⟩
  intro a ha b hb hab
  obtain ⟨n, hn, rfl⟩ := List.mem_map.mp ha
  obtain ⟨k, hk, rfl⟩ := List.mem_map.mp hb
  have hkept := (Model.mem_candidates_iff.mp hn).2.2
  rw [hab, ((Model.mem_propagation_cyclic_iff hm).mp hk).2] at hkept
  cases hkept

theorem Plan.leavesOut_iff (hm : m.Consistent) (h : plan o name m = .ok p) (hn : n ∈ m.nodes) :
    p.LeavesOut n reason ↔
      (m.propagation.isCyclic n.id = true ∧ reason = .paddingCycle) ∨
      (n ∈ m.stranded m.propagation.isCyclic ∧ reason = .unsatisfiableInput
        (n.missing (settle [] (m.candidates m.propagation.isCyclic)).available)) ∨
      (n ∈ m.deadInputs m.propagation.isCyclic ∧ reason = .deadInput) := by
  have hcyclic (k : Node) (hk : k ∈ m.propagation.cyclic) : k ∈ m.nodes :=
    ((Model.mem_propagation_cyclic_iff hm).mp hk).1
  unfold Plan.LeavesOut
  rw [plan_dropped h, List.mem_append, List.mem_append, Model.mem_report_iff hm hcyclic hn,
    Model.mem_report_iff hm (fun k => Model.mem_nodes_of_stranded hm) hn,
    Model.mem_report_iff hm (fun k => Model.mem_nodes_of_dead) hn,
    Model.mem_propagation_cyclic_iff hm, and_iff_right hn]

theorem Plan.accountsFor (hm : m.Consistent) (h : plan o name m = .ok p) :
    p.AccountsFor m m.propagation.isCyclic {n | n ∈ m.runnable m.propagation.isCyclic} := by
  obtain ⟨_, _, horder, _⟩ := plan_settled h
  have hperm := order_dropped_perm h
  have hnodup := hperm.nodup_iff.mpr (candidates_cyclic_ids_nodup hm)
  have hscheduled (n : Node) : n ∈ p.order ↔ n ∈ m.runnable m.propagation.isCyclic ∧
      ¬n.Unread {k | k ∈ m.runnable m.propagation.isCyclic} := by
    rw [horder, Model.loweringOrder, mem_order_iff, Node.unread_iff, Bool.not_eq_true]
  constructor
  case nodup => exact hnodup
  case scheduled => exact hscheduled
  case once =>
    intro n hn hskip
    refine List.count_eq_one_of_mem hnodup (hperm.mem_iff.mpr (List.mem_map_of_mem ?_))
    rw [List.mem_append, Model.mem_candidates_iff, Model.mem_propagation_cyclic_iff hm]
    cases m.propagation.isCyclic n.id <;> simp [hn, hskip]
  case reported =>
    intro d hd
    rw [plan_dropped h, List.mem_append, List.mem_append] at hd
    rcases hd with hd | hd | hd
    all_goals obtain ⟨n, hn, rfl⟩ := List.mem_map.mp hd
    · exact ⟨n, ((Model.mem_propagation_cyclic_iff hm).mp hn).1, rfl⟩
    · exact ⟨n, Model.mem_nodes_of_stranded hm hn, rfl⟩
    · exact ⟨n, Model.mem_nodes_of_dead hn, rfl⟩
  case skipped =>
    intro n hn hskip
    constructor
    · intro hmem
      exact (mem_of_mem_runnable ((hscheduled n).mp hmem).1).2.1 hskip
    · intro reason hout
      rcases (Plan.leavesOut_iff hm h hn).mp hout with ⟨_, rfl⟩ | ⟨hn, _⟩ | ⟨hn, _⟩
      · rfl
      · have hcand := ((Model.mem_stranded_iff hm).mp hn).1
        exact absurd hskip (Model.mem_candidates_iff.mp hcand).2.1
      · have hrun := (Model.mem_deadInputs_iff.mp hn).1
        exact absurd hskip (mem_of_mem_runnable hrun).2.1
  case paddingCycle =>
    intro n hn
    rw [Plan.leavesOut_iff hm h hn]
    simp
  case unsatisfiable =>
    intro n hn hskip hkept
    have hcand := Model.mem_candidates_iff.mpr ⟨hn, hskip, hkept⟩
    simp only [Plan.leavesOut_iff hm h hn, Model.mem_stranded_iff hm, hcand]
    simp
  case missing =>
    intro n hn missing hout x
    rcases (Plan.leavesOut_iff hm h hn).mp hout with ⟨_, heq⟩ | ⟨_, heq⟩ | ⟨_, heq⟩
    · cases heq
    · cases heq
      exact Model.mem_missing_iff
    · cases heq
  case deadInput =>
    intro n hn
    rw [Plan.leavesOut_iff hm h hn, Model.mem_deadInputs_iff]
    simp

theorem plan_perm {o' : Options} {name' : String} {m' : Model} {p' : Plan} (hm : m.Consistent)
    (hm' : m'.Consistent) (hnodes : m.nodes.Perm m'.nodes) (h : plan o name m = .ok p)
    (h' : plan o' name' m' = .ok p') : p.order.Perm p'.order ∧ p.dropped.Perm p'.dropped := by
  have hcyclic (n : Node) (hn : n ∈ m.nodes) := Model.isCyclic_of_perm hm hm' hnodes hn
  obtain ⟨_, _, horder, _, hdropped, _⟩ := plan_settled h
  obtain ⟨_, _, horder', _, hdropped', _⟩ := plan_settled h'
  constructor
  · rw [horder, horder']
    exact Model.order_perm hnodes hcyclic hm hm'
  · rw [hdropped, hdropped']
    exact (Model.dropped_of_perm hm hm' hnodes).append
      (Model.schedule_dropped_perm hnodes hcyclic hm hm')

end plans

/-- Every node of a model that has a plan is accounted for: it is scheduled, or dropped for the one reason
that its place in the model gives. So other options, names, tensors and orders of insertion change neither
which nodes are scheduled nor any reason. -/
theorem plan_accounts_for_nodes (o : Options) (name : String) (m : Model) (p : Plan) (hm : m.Reachable)
    (h : plan o name m = .ok p) :
    (∃ paddings live, propagate o.strictPadding m = .ok paddings ∧
      IsLeast {s | m.SelfSufficient paddings.isCyclic s} live ∧
      p.AccountsFor m paddings.isCyclic live) ∧
    ∀ o' name' m' p', m'.Reachable → m.nodes.Perm m'.nodes → plan o' name' m' = .ok p' →
      p.order.Perm p'.order ∧ p.dropped.Perm p'.dropped := by
  constructor
  · obtain ⟨hagree, _⟩ := plan_settled h
    exact ⟨m.propagation, _, propagate_eq_ok_iff.mpr ⟨hagree, rfl⟩, Model.isLeast_runnable,
      Plan.accountsFor hm.consistent h⟩
  · intro o' name' m' p' hm' hnodes h'
    exact plan_perm hm.consistent hm'.consistent hnodes h h'

/-- A rectified image, with an image nobody reads, a node that waits for ever, and two nodes that read each
other and a probe. -/
def tangledImage : List Node :=
  [{ id := "image", kind := .input, outputs := ["a"], outputShapes := [⟨[4, 4, 3], .rowColumnChannel⟩] },
   { id := "spare", kind := .input, outputs := ["b"], outputShapes := [⟨[4, 4, 3], .rowColumnChannel⟩] },
   { id := "lost", kind := .sigmoid, inputs := ["a", "nowhere"], outputs := ["c"] },
   { id := "there", kind := .passthrough, inputs := ["back", "probed"], outputs := ["forth"] },
   { id := "here", kind := .passthrough, inputs := ["forth"], outputs := ["back"] },
   { id := "probe", kind := .skip, inputs := ["a"], outputs := ["probed"] },
   { id := "log", kind := .skip, inputs := ["a"] },
   { id := "bent", kind := .relu, inputs := ["a"], outputs := ["out"] }]

theorem plan_accounts_for_tangledImage :
    ∃ p p', plan standardOptions "net" ⟨tangledImage, []⟩ = .ok p ∧ p.order.map Node.id = ["image", "bent"] ∧
      plan strictOptions "other" ⟨tangledImage.reverse, []⟩ = .ok p' ∧
      (∃ paddings live, propagate false ⟨tangledImage, []⟩ = .ok paddings ∧
        IsLeast {s | (Model.mk tangledImage []).SelfSufficient paddings.isCyclic s} live ∧
        p.AccountsFor ⟨tangledImage, []⟩ paddings.isCyclic live) ∧
      p.order.Perm p'.order ∧ p.dropped.Perm p'.dropped := by
  have hreach : (Model.mk tangledImage []).Reachable :=
    Model.reachable_of_consistent ⟨by decide, by decide, by decide, by decide⟩
  have hreach' : (Model.mk tangledImage.reverse []).Reachable :=
    Model.reachable_of_consistent ⟨by decide, by decide, by decide, by decide⟩
  obtain ⟨p, hplan, horder⟩ : ∃ p, plan standardOptions "net" ⟨tangledImage, []⟩ = .ok p ∧
      p.order = _ := exists_plan_of_order (by cbv) (List.cons_ne_nil _ _)
  obtain ⟨p', hplan', _⟩ : ∃ p, plan strictOptions "other" ⟨tangledImage.reverse, []⟩ = .ok p ∧
      p.order = _ := exists_plan_of_order (by cbv) (List.cons_ne_nil _ _)
  obtain ⟨haccount, hperm⟩ := plan_accounts_for_nodes standardOptions "net" _ p hreach hplan
  exact ⟨p, p', hplan, by rw [horder]; rfl, hplan', haccount,
    hperm _ _ _ p' hreach' (List.reverse_perm _).symm hplan'⟩

end NetLowering
