import NetLowering.Proofs.Run

/-! # The order of plan nodes

Plan nodes are numbered from one in the order they are emitted, and each reads only plan nodes that were
emitted before it. Nothing checks this while a model is lowered: it holds because a converter takes its
operands from the block it is part of, or from the owners of values, and both are plan nodes already
(`Ownership.Ordered`). It is kept by every converter, scripts included, and so it holds of every plan,
whatever its registry (`Planned.ordered`). So does that a plan node carries the id of the node that emitted it
(`Planned.group_eq`). -/

namespace NetLowering

/-! ### Tables -/

namespace Ownership

/-- The plan nodes are numbered in order, values are owned by plan nodes, and the operands of a plan node
come before it. -/
structure Ordered (t : Ownership) : Prop where
  numbered : t.nodes.map PlanNode.id = List.range' 1 t.nodes.length
  owned : ∀ x q, t.owner? x = some q → q ∈ t.nodes
  operands : ∀ q ∈ t.nodes, ∀ o ∈ q.primitive.operands, ∃ p ∈ t.nodes, p.id = o.source ∧ p.id < q.id

variable {t : Ownership} {n : Node} {p : PlanNode}

theorem ordered_empty : Ordered {} := by
  refine ⟨rfl, fun x q h => ?_, fun q h => ?_⟩
  · cases h
  · cases h

theorem Ordered.id_lt (h : t.Ordered) {q : PlanNode} (hq : q ∈ t.nodes) : q.id < t.nextId := by
  have hmem : q.id ∈ t.nodes.map PlanNode.id := List.mem_map_of_mem hq
  rw [h.numbered, List.mem_range'_1] at hmem
  have hlen : t.nodes.length = t.emissions.length := List.length_map _
  unfold nextId
  omega

theorem Ordered.own (h : t.Ordered) (hp : p ∈ t.nodes) : (t.own n p).Ordered := by
  refine ⟨h.numbered, fun x q hq => ?_, h.operands⟩
  rw [owner?_own] at hq
  split at hq
  · cases hq; exact hp
  · exact h.owned x q hq

theorem Ordered.emit (h : t.Ordered) (hid : p.id = t.nextId)
    (hops : ∀ o ∈ p.primitive.operands, ∃ q ∈ t.nodes, q.id = o.source) : (t.emit n p).Ordered := by
  refine ⟨?_, fun x q hq => ?_, fun q hq o ho => ?_⟩
  · have hlen : t.emissions.length = t.nodes.length := (List.length_map _).symm
    rw [emit_nodes, List.map_append, List.map_singleton, h.numbered, List.length_append,
      List.length_singleton, List.range'_concat, hid, nextId, hlen, Nat.one_mul, Nat.add_comm]
  · rw [emit_nodes]
    rw [owner?_emit] at hq
    split at hq
    · cases hq; exact List.mem_append_right _ (List.mem_singleton_self _)
    · exact List.mem_append_left _ (h.owned x q hq)
  · rw [emit_nodes] at hq ⊢
    rcases List.mem_append.mp hq with hq | hq
    · obtain ⟨p', hp', hsource, hlt⟩ := h.operands q hq o ho
      exact ⟨p', List.mem_append_left _ hp', hsource, hlt⟩
    · rw [List.mem_singleton.mp hq] at ho ⊢
      obtain ⟨p', hp', hsource⟩ := hops o ho
      exact ⟨p', List.mem_append_left _ hp', hsource, hid ▸ h.id_lt hp'⟩

theorem Ordered.ids_nodup (h : t.Ordered) : (t.nodes.map PlanNode.id).Nodup := by
  rw [h.numbered]
  exact List.nodup_range'

theorem Ordered.mem_of_id_lt (h : t.Ordered) {done rest : List PlanNode} {q : PlanNode}
    (hsplit : t.nodes = done ++ q :: rest) (hp : p ∈ t.nodes) (hlt : p.id < q.id) : p ∈ done := by
  have hsorted : (t.nodes.map PlanNode.id).Pairwise (· < ·) := by
    rw [h.numbered]
    exact List.pairwise_lt_range'
  rw [hsplit, List.map_append, List.pairwise_append, List.map_cons, List.pairwise_cons] at hsorted
  rw [hsplit] at hp
  rcases List.mem_append.mp hp with hp | hp
  · exact hp
  · rcases List.mem_cons.mp hp with rfl | hp
    · exact absurd hlt (Nat.lt_irrefl _)
    · have hgt := hsorted.2.1.1 _ (List.mem_map_of_mem hp)
      omega

end Ownership

/-! ### Runs -/

/-- A block under way is ordered: so is the table, and it goes on from plan nodes. -/
structure BlockRun.Ordered (s : BlockRun) : Prop where
  table : s.run.table.Ordered
  previous : ∀ q, s.previous = some q → q ∈ s.run.table.nodes
  forwarded : ∀ q, s.forwarded = some q → q ∈ s.run.table.nodes

section runs
variable {c : Context} {s s' : BlockRun} {e : Element} {o : Options} {m : Model}
variable {paddings : Propagation} {r r' : Run} {n : Node} {nodes : List Node}

theorem BlockRun.Ordered.mem_of_producer (hs : s.Ordered) {index : Int} {q : PlanNode}
    (h : (s.here c e).producer index = .ok q) : q ∈ s.run.table.nodes := by
  obtain ⟨_, x, _, _, howner⟩ := (Context.producer_ends _ index).result h
  exact hs.table.owned x q howner

/-- What a converter reads is a plan node already. -/
theorem BlockRun.Ordered.mem_of_reads (hs : s.Ordered) {index : Int} {o : Operand}
    (h : (s.here c e).Reads index o) : ∃ q ∈ s.run.table.nodes, q.id = o.source := by
  obtain ⟨given, hgiven, hsource⟩ := h
  rcases (Context.input_ends _ index).result hgiven with ⟨_, p, hp, rfl⟩ | ⟨_, p, hp, rfl⟩
  · exact ⟨p, hs.previous p hp, hsource.symm⟩
  · exact ⟨p, hs.mem_of_producer hp, hsource.symm⟩

theorem BlockRun.Ordered.step (hs : s.Ordered) (h : s.step c e = .ok s') : s'.Ordered := by
  obtain ⟨outcome, hconv, hforward, hcases⟩ := BlockRun.step_eq_ok h
  have hsound := (Action.convert_sound _ _).result hconv
  have hforwarded (q : PlanNode) (hq : s'.forwarded = some q) : q ∈ s.run.table.nodes := by
    rw [hforward] at hq
    cases hf : outcome.forward with
    | none => rw [hf] at hq; exact hs.forwarded q hq
    | some p =>
        rw [hf] at hq
        cases hq
        obtain ⟨index, hproducer⟩ := hsound.forward q hf
        exact hs.mem_of_producer hproducer
  rcases hcases with ⟨_, htable, hprev⟩ | ⟨p, hemit, htable, hprev⟩
  · exact ⟨htable ▸ hs.table, htable ▸ hprev ▸ hs.previous, htable ▸ hforwarded⟩
  · have hnodes : s'.run.table.nodes = s.run.table.nodes ++ [s.planNode c e p] := by
      rw [htable, Ownership.emit_nodes]
    refine ⟨?_, fun q hq => ?_, fun q hq => ?_⟩
    · rw [htable]
      refine hs.table.emit rfl fun o ho => ?_
      obtain ⟨index, hreads⟩ := hsound.emit p hemit o ho
      exact hs.mem_of_reads hreads
    · rw [hprev] at hq
      cases hq
      rw [hnodes]
      exact List.mem_append_right _ (List.mem_singleton_self _)
    · rw [hnodes]
      exact List.mem_append_left _ (hforwarded q hq)

theorem lowerNode_ordered (hr : r.table.Ordered) (h : r.lowerNode o m paddings n = .ok r') :
    r'.table.Ordered := by
  obtain ⟨_, _, s, _, _, hfold, hfinish⟩ := lowerNode_eq_ok h
  have hstart : BlockRun.Ordered { run := r } := by
    refine ⟨hr, fun q hq => ?_, fun q hq => ?_⟩
    · cases hq
    · cases hq
  have hs : s.Ordered := foldlM_keeps (fun _ _ _ _ hs hstep => hs.step hstep) hstart hfold
  unfold BlockRun.finish at hfinish
  split at hfinish
  · cases hfinish; exact hs.table
  · rename_i q _ hq
    cases hfinish
    exact hs.table.own (hs.forwarded q hq)
  · cases hfinish

theorem lowerNodes_ordered (hr : r.table.Ordered)
    (h : nodes.foldlM (Run.lowerNode o m paddings) r = .ok r') : r'.table.Ordered :=
  foldlM_keeps (I := fun r => r.table.Ordered) (fun _ _ _ _ hr h => lowerNode_ordered hr h) hr h

/-- The plan nodes of every plan are in order. -/
theorem Planned.ordered {p : Plan} {start final : Run} (hp : Planned o m p paddings start final) :
    p.table.Ordered := by
  rw [hp.table]
  refine lowerNodes_ordered ?_ hp.run
  rw [hp.empty]
  exact Ownership.ordered_empty

/-- The plan nodes carry the ids of the nodes that emitted them. -/
def Ownership.Grouped (t : Ownership) : Prop := ∀ e ∈ t.emissions, e.node.group = e.origin.id

theorem lowerNode_grouped (hr : r.table.Grouped) (h : r.lowerNode o m paddings n = .ok r') :
    r'.table.Grouped := by
  obtain ⟨_, _, s, _, _, hfold, hfinish⟩ := lowerNode_eq_ok h
  have hs : s.run.table.Grouped := by
    refine foldlM_keeps (I := fun s : BlockRun => s.run.table.Grouped) (fun _ _ s s' hs hstep => ?_) hr hfold
    obtain ⟨_, _, _, ⟨_, htable, _⟩ | ⟨p, _, htable, _⟩⟩ := BlockRun.step_eq_ok hstep
    · rw [htable]
      exact hs
    · rw [htable]
      intro e he
      rw [Ownership.emit_emissions] at he
      rcases List.mem_append.mp he with he | he
      · exact hs e he
      · rw [List.mem_singleton.mp he]
        rfl
  unfold BlockRun.finish at hfinish
  split at hfinish
  · cases hfinish; exact hs
  · cases hfinish; exact hs
  · cases hfinish

theorem Planned.group_eq {p : Plan} {start final : Run} (hp : Planned o m p paddings start final)
    {id : String} {q : PlanNode} (hq : q ∈ p.table.emitted id) : q.group = id := by
  have hgrouped : p.table.Grouped := by
    rw [hp.table]
    refine foldlM_keeps (I := fun r : Run => r.table.Grouped) (fun _ _ _ _ hr h => lowerNode_grouped hr h)
      ?_ hp.run
    rw [hp.empty]
    intro e he
    cases he
  obtain ⟨e, he, rfl⟩ := List.mem_map.mp hq
  obtain ⟨he, hid⟩ := List.mem_filter.mp he
  rw [hgrouped e he]
  simpa using hid

/-- The numbers of what a node emits go on from those before. -/
theorem Lowered.numbers {t t' : Ownership} {sent : List PlanNode} {owner : PlanNode}
    (h : Lowered t n t' sent owner) (ht : t'.Ordered) :
    sent.map PlanNode.id = List.range' t.nextId sent.length := by
  have hnumbered := ht.numbered
  rw [h.nodes, List.map_append, List.length_append, ← List.range'_append_1] at hnumbered
  have hlen : t.nodes.length = t.emissions.length := List.length_map _
  rw [(List.append_inj hnumbered (by simp)).2, hlen, Ownership.nextId, Nat.add_comm]

/-- The turn of a node in a plan, with the plan nodes before it in order. -/
theorem Planned.stage_ordered {p : Plan} {start final : Run} (hm : m.Consistent)
    (hp : Planned o m p paddings start final) {pre post : List Node}
    (hsplit : p.order = pre ++ n :: post) :
    ∃ before after, Stage o m paddings p pre n before after ∧ before.table.Ordered := by
  have hrun := hp.run
  rw [hsplit] at hrun
  obtain ⟨before, after, hpre, hn, hpost⟩ := foldlM_append_cons_eq_ok hrun
  refine ⟨before, after, hp.stage_of_run hm hsplit hpre hn hpost, lowerNodes_ordered ?_ hpre⟩
  rw [hp.empty]
  exact Ownership.ordered_empty

end runs

end NetLowering
