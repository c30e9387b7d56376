import NetLowering.Proofs.Accounting
import NetLowering.Proofs.Emission
import NetLowering.Proofs.Replay
import NetLowering.Proofs.Resolution

/-! # Tracing plan nodes back

A plan can be read in three ways: as the list of its nodes, by the logical node that emitted them, and by number
with the logical node they come from. All three are read off one list of emissions, so no run can add to one of them
and not to the others; what is left to show is that nothing is lost in the reading (`Plan.Traceable`). Numbers have
to tell plan nodes apart, and ids the nodes of a schedule; both hold in every plan, whatever its registry. With the
standard registry the inputs of a plan are those of the model that are scheduled, one for one
(`plan_traces_back`). -/

namespace NetLowering

/-! ### Origins -/

section origins
variable {o : Options} {m : Model} {p : Plan} {paddings : Propagation} {start final : Run} {n : Node}

theorem Ownership.Ordered.origin?_eq_some_iff {t : Ownership} (h : t.Ordered) {id : Nat} :
    t.origin? id = some n ↔ ∃ e ∈ t.emissions, e.node.id = id ∧ e.origin = n := by
  have hids : (t.emissions.map fun e => e.node.id).Nodup := by
    have hnodup := h.ids_nodup
    rwa [Ownership.nodes, List.map_map] at hnodup
  simp only [Ownership.origin?, Option.map_eq_some_iff, Model.find?_key_eq_some_iff hids, and_assoc]

theorem Ownership.Ordered.origin?_eq_none_iff {t : Ownership} (h : t.Ordered) {id : Nat} :
    t.origin? id = none ↔ id = 0 ∨ t.nodes.length < id := by
  have hnone : t.origin? id = none ↔ id ∉ t.nodes.map PlanNode.id := by
    simp [Ownership.origin?, Ownership.nodes]
  rw [hnone, h.numbered, List.mem_range'_1]
  omega

theorem Planned.origin_mem_order (hp : Planned o m p paddings start final) :
    ∀ e ∈ p.table.emissions, e.origin ∈ p.order := by
  rw [hp.table]
  refine foldlM_keeps (I := fun r : Run => ∀ e ∈ r.table.emissions, e.origin ∈ p.order)
    (fun k hk r r' hr hlower e he => ?_) ?_ hp.run
  · obtain ⟨sent, _, hl⟩ := lowerNode_lowered hlower
    rw [hl.emissions, List.mem_append] at he
    rcases he with he | he
    · exact hr e he
    · obtain ⟨q, _, rfl⟩ := List.mem_map.mp he
      exact hk
  · rw [hp.empty]
    intro e he
    cases he

theorem Planned.emitted_eq_nil (hp : Planned o m p paddings start final) {id : String}
    (hid : id ∉ p.order.map Node.id) : p.table.emitted id = [] := by
  unfold Ownership.emitted
  rw [List.map_eq_nil_iff, List.filter_eq_nil_iff]
  intro e he hkey
  have hmem := List.mem_map_of_mem (f := Node.id) (hp.origin_mem_order e he)
  rw [of_decide_eq_true hkey] at hmem
  exact hid hmem

/-- A node of the order is the origin of just the plan nodes it emitted. -/
theorem Planned.origin?_eq_some_iff (hm : m.Consistent) (hp : Planned o m p paddings start final) {id : Nat} :
    p.table.origin? id = some n ↔ n ∈ p.order ∧ ∃ q ∈ p.table.emitted n.id, q.id = id := by
  rw [hp.ordered.origin?_eq_some_iff]
  constructor
  · rintro ⟨e, he, hid, rfl⟩
    exact ⟨hp.origin_mem_order e he, e.node, List.mem_map_of_mem (List.mem_filter.mpr ⟨he, by simp⟩), hid⟩
  · rintro ⟨hn, q, hq, hid⟩
    obtain ⟨e, he, rfl⟩ := List.mem_map.mp hq
    obtain ⟨he, hkey⟩ := List.mem_filter.mp he
    have hmem (k : Node) (hk : k ∈ p.order) : k ∈ m.nodes := hp.mem_nodes hk
    exact ⟨e, he, hid, hm.eq_of_id_eq (hmem _ (hp.origin_mem_order e he)) (hmem n hn) (of_decide_eq_true hkey)⟩

end origins

/-- The ways of reading what the nodes of a plan come from agree. -/
structure Plan.Traceable (p : Plan) (m : Model) : Prop where
  nodes : p.nodes = p.order.flatMap fun n => p.table.emitted n.id
  numbered : p.nodes.map PlanNode.id = List.range' 1 p.nodes.length
  origin : ∀ id n, p.table.origin? id = some n ↔ n ∈ p.order ∧ ∃ q ∈ p.table.emitted n.id, q.id = id
  group : ∀ q ∈ p.nodes, ∃ n, p.table.origin? q.id = some n ∧ q.group = n.id
  outside : ∀ id, p.table.origin? id = none ↔ id = 0 ∨ p.nodes.length < id
  dropped : ∀ d ∈ p.dropped, p.table.emitted d.id = []
  skipped : ∀ n ∈ m.nodes, n.kind = .skip → p.table.emitted n.id = []

theorem Plan.traceable {o : Options} {name : String} {m : Model} {p : Plan} (hm : m.Consistent)
    (h : plan o name m = .ok p) : p.Traceable m := by
  obtain ⟨paddings, start, final, hp⟩ := plan_eq_ok h
  have haccounts := Plan.accountsFor hm h
  have hnodes := hp.nodes_eq hm
  constructor
  case nodes => exact hnodes
  case numbered => exact hp.ordered.numbered
  case origin => exact fun id n => hp.origin?_eq_some_iff hm
  case group =>
    intro q hq
    rw [hnodes, List.mem_flatMap] at hq
    obtain ⟨n, hn, hq⟩ := hq
    exact ⟨n, (hp.origin?_eq_some_iff hm).mpr ⟨hn, q, hq, rfl⟩, hp.group_eq hq⟩
  case outside => exact fun id => hp.ordered.origin?_eq_none_iff
  case dropped =>
    intro d hd
    have hapart := (List.nodup_append.mp haccounts.nodup).2.2
    exact hp.emitted_eq_nil fun hmem => hapart _ hmem _ (List.mem_map_of_mem hd) rfl
  case skipped =>
    intro n hn hskip
    refine hp.emitted_eq_nil fun hmem => ?_
    obtain ⟨k, hk, hid⟩ := List.mem_map.mp hmem
    obtain rfl := hm.eq_of_id_eq (hp.mem_nodes hk) hn hid
    exact (haccounts.skipped k hn hskip).1 hk

/-! ### Inputs -/

/-- The plan node by which an input of the model enters the network: it has no border, and goes by the name of
the input. -/
structure PlanNode.Enters (n : Node) (q : PlanNode) : Prop where
  group : q.group = n.id
  kind : q.primitive.kind = .input
  unpadded : q.primitive.output.padding = .absent
  named : q.primitive.attributes = [("name", .word n.id)]

/-- Only the block of an input has a converter that makes inputs. -/
theorem Registry.standardBlock_kind?_ne {kind : OpKind} (hkind : kind ≠ .input) :
    ∀ cv ∈ standardBlock kind, cv.action.kind? ≠ some .input := by
  cases kind with
  | input => exact absurd rfl hkind
  | unlisted =>
      intro cv hcv
      cases hcv
  | _ => decide

theorem filter_applicable_input {c : Context} {kind : OpKind} {applied : Block}
    (h : Block.applicable c (Registry.standardBlock kind) = .ok applied) :
    applied.filter (fun cv => cv.action.kind? = some .input) =
      if kind = .input then [Registry.input] else [] := by
  obtain ⟨rfl, hrequired⟩ := applicable_eq_ok h
  by_cases hkind : kind = .input
  · subst hkind
    have hinput := hrequired Registry.input List.mem_cons_self rfl
    have hfilter : (Registry.standardBlock .input).filter (fun cv => cv.action.kind? = some .input) =
        [Registry.input] := rfl
    rw [List.filter_comm, hfilter, if_pos rfl, List.filter_singleton, hinput, cond_true]
  · rw [if_neg hkind, List.filter_eq_nil_iff]
    intro cv hcv
    simpa using Registry.standardBlock_kind?_ne hkind cv (List.mem_of_mem_filter hcv)

theorem Context.convertInput_attributes {c : Context} {made : Primitive} (h : c.convertInput = .ok made) :
    made.attributes = [("name", .word c.node.id)] := by
  unfold convertInput at h
  split at h
  · cases h
  · obtain ⟨shape, _, hmade⟩ := bind_eq_ok_iff.mp h
    cases hmade
    rfl

theorem BlockRun.Origin.enters {c : Context} {sent : List PlanNode} {e : Element} {s : BlockRun} {q : PlanNode}
    (h : Origin c sent e s q) (he : e.converter = Registry.input) : q.Enters c.node := by
  have hmakes := h.makes
  have hconverted := h.converted
  rw [he] at hmakes hconverted
  obtain ⟨kind, hkind, hmade⟩ := hmakes
  cases hkind
  refine ⟨?_, hmade.kind, hmade.border, ?_⟩
  · rw [h.node]
    rfl
  · obtain ⟨made, hmade, heq⟩ := bind_eq_ok_iff.mp hconverted
    cases heq
    exact Context.convertInput_attributes hmade

/-- The plan nodes of a kind were made by the elements that make it. -/
theorem BlockRun.Emits.filter_kind {c : Context} {sent more : List PlanNode} {elements : List Element}
    (h : Emits c sent elements more) (kind : PrimitiveKind) :
    List.Forall₂ (fun e q => ∃ sent s, Origin c sent e s q)
      (elements.filter fun e => e.converter.action.kind? = some kind)
      (more.filter fun q => q.primitive.kind = kind) := by
  refine List.rel_filter ?_ h.origins
  rintro e q ⟨sent, s, horigin⟩
  obtain ⟨made, hkind, hmade⟩ := horigin.makes
  simp [hkind, hmade.kind]

/-- In the turn of an input one input is made, and in other turns none. -/
theorem Turn.enters {m : Model} {p : Plan} {n : Node} {c : Context} {applied : Block}
    (ht : Turn m p n c applied) : List.Forall₂ PlanNode.Enters ([n].filter fun n => n.kind = .input)
      ((p.table.emitted n.id).filter fun q => q.primitive.kind = .input) := by
  obtain rfl := ht.node
  have hconverters := filter_applicable_input ht.block
  rw [← elements_converters false applied, List.filter_map, Function.comp_def] at hconverters
  by_cases hkind : c.node.kind = .input
  · rw [List.filter_cons_of_pos (by simpa using hkind)]
    rw [if_pos hkind, List.map_eq_singleton_iff] at hconverters
    obtain ⟨e, helements, he⟩ := hconverters
    rcases ht.emits with ⟨_, cv, hcv, hmay⟩ | hemits
    · -- neither of its converters leaves its work to an owner
      have hblock := ht.block
      rw [hkind] at hblock
      rw [((regular_input hkind hblock).plain cv hcv).2] at hmay
      cases hmay
    · have hmade := hemits.filter_kind .input
      rw [helements, List.forall₂_cons_left_iff] at hmade
      obtain ⟨q, rest, ⟨_, _, horigin⟩, hrest, heq⟩ := hmade
      rw [List.forall₂_nil_left_iff.mp hrest] at heq
      rw [heq]
      exact .cons (horigin.enters he) .nil
  · rw [List.filter_cons_of_neg (by simpa using hkind)]
    rw [if_neg hkind, List.map_eq_nil_iff] at hconverters
    rcases ht.emits with ⟨hnil, _⟩ | hemits
    · rw [hnil]
      exact .nil
    · have hmade := hemits.filter_kind .input
      rw [hconverters] at hmade
      rw [List.forall₂_nil_left_iff.mp hmade]
      exact .nil

/-- Every plan can be traced back to its model; with the standard registry its inputs are those of the model
that are scheduled. -/
theorem plan_traces_back (o : Options) (name : String) (m : Model) (p : Plan) (hm : m.Reachable)
    (h : plan o name m = .ok p) :
    p.Traceable m ∧ (o.registry = .standard →
      List.Forall₂ PlanNode.Enters (p.order.filter fun n => n.kind = .input) p.inputs) := by
  refine ⟨Plan.traceable hm.consistent h, fun hreg => ?_⟩
  obtain ⟨paddings, start, final, hp⟩ := plan_eq_ok h
  rw [Plan.inputs, hp.nodes_eq hm.consistent]
  refine forall₂_filter_flatMap fun n hn => ?_
  obtain ⟨c, applied, ht⟩ := hp.turn hm.consistent hreg hn
  exact ht.enters

/-- Two images, one of them read with a border, and their sum; a probe, and a node that waits for ever. -/
def framedImages : List Node :=
  [{ id := "left", kind := .input, outputs := ["a"], outputShapes := [⟨[4, 4, 3], .rowColumnChannel⟩] },
   { id := "right", kind := .input, outputs := ["b"], outputShapes := [⟨[4, 4, 3], .rowColumnChannel⟩] },
   { id := "probe", kind := .skip, inputs := ["a"], outputs := ["probed"] },
   { id := "lost", kind := .sigmoid, inputs := ["nowhere"], outputs := ["c"] },
   { id := "bent", kind := .relu, inputs := ["a"], outputs := ["d"], inputPadding := ⟨1, .zeros⟩ },
   { id := "sum", kind := .plus, inputs := ["b", "d"], outputs := ["out"] }]

theorem plan_traces_back_framedImages : ∃ p, plan standardOptions "net" ⟨framedImages, []⟩ = .ok p ∧
    p.nodes.map (fun q => (q.id, q.group, q.primitive.kind)) =
      [(1, "left", .input), (2, "left", .reorder), (3, "right", .input), (4, "bent", .activation),
        (5, "sum", .binaryOperation)] ∧
    p.Traceable ⟨framedImages, []⟩ ∧
    List.Forall₂ PlanNode.Enters (p.order.filter fun n => n.kind = .input) p.inputs := by
  have hreach : (Model.mk framedImages []).Reachable :=
    Model.reachable_of_consistent ⟨by decide, by decide, by decide, by decide⟩
  obtain ⟨p, hplan, hnodes⟩ : ∃ p, plan standardOptions "net" ⟨framedImages, []⟩ = .ok p ∧
      p.nodes.map (fun q => (q.id, q.group, q.primitive.kind)) = _ := exists_plan_of_view (by cbv)
  obtain ⟨htraceable, hinputs⟩ := plan_traces_back standardOptions "net" _ p hreach hplan
  exact ⟨p, hplan, hnodes, htraceable, hinputs rfl⟩

end NetLowering
