import NetLowering.Proofs.Lockstep
import NetLowering.Proofs.SplitOrder

/-! # Plans after a split

A plan for a model gives one for the model after a split, if the two halves can be lowered to what the whole
node was lowered to. The other nodes take care of themselves: as long as the two runs go alongside each
other, that is, hold plan nodes that correspond under the same numbers, and owners that do, each of them is
lowered alike in both (`Alongside.foldlM`). `Splits.exists_plan` puts this together with the paddings and
the schedule; what is left to show is how the halves are lowered. -/

namespace NetLowering

/-- Plan nodes keep their numbers, and each may stand for itself. -/
structure Correspondence.Steady (k : Correspondence) : Prop where
  number : k.number = id
  refl : ∀ q, k.Pairs q q

/-- The tables hold plan nodes that correspond, in the same order, and so do the owners of all values but
`w`. -/
structure Alongside (k : Correspondence) (w : String) (t t' : Ownership) : Prop where
  nodes : List.Forall₂ k.Pairs t.nodes t'.nodes
  owner : ∀ x, x ≠ w → Option.Rel k.Pairs (t.owner? x) (t'.owner? x)

/-- The node has nothing to do with the value `w` and is to write the same border in both runs. -/
structure Bystander (w : String) (paddings paddings' : Propagation) (n : Node) : Prop where
  unlinked : w ∉ n.inputs ∧ w ∉ n.outputs
  loopless : ∀ x ∈ n.inputs, x ∉ n.outputs
  padding : paddings'.outputPadding n.id = paddings.outputPadding n.id

section runs
variable {k : Correspondence} {w : String} {o : Options} {m m' : Model} {paddings paddings' : Propagation}
variable {r r₁ r' : Run} {n n' : Node}

theorem Alongside.empty (k : Correspondence) (w : String) : Alongside k w {} {} :=
  ⟨.nil, fun _ _ => .none⟩

theorem Alongside.nextId {t t' : Ownership} (h : Alongside k w t t') : t'.nextId = t.nextId := by
  have hlen := h.nodes.length_eq
  unfold Ownership.nodes at hlen
  rw [List.length_map, List.length_map] at hlen
  unfold Ownership.nextId
  rw [hlen]

/-- Nodes that emit what corresponds keep the runs alongside. -/
theorem Alongside.lowered {t t₁ t' t₁' : Ownership} {sent sent' : List PlanNode} {owner owner' : PlanNode}
    (h : Alongside k w t t') (hl : Lowered t n t₁ sent owner) (hl' : Lowered t' n' t₁' sent' owner')
    (houtputs : n'.outputs = n.outputs) (hsent : List.Forall₂ k.Pairs sent sent')
    (howner : k.Pairs owner owner') : Alongside k w t₁ t₁' := by
  refine ⟨?_, fun x hx => ?_⟩
  · rw [hl.nodes, hl'.nodes]
    exact List.rel_append h.nodes hsent
  · rw [hl.owner_eq, hl'.owner_eq, houtputs]
    split
    · exact .some howner
    · exact h.owner x hx

variable (hk : k.Steady) (hreg : o.registry = .standard) (htensor : ∀ id, m'.tensor? id = m.tensor? id)
include hk hreg htensor

/-- A node is lowered alike in a run alongside, also if its inputs go by other names there. -/
theorem Alongside.lowerNode (h : Alongside k w r.table r'.table)
    (hnode : n' = n.withInputs n'.inputs)
    (howners : List.Forall₂ (fun x x' => Option.Rel k.Pairs (r.table.owner? x) (r'.table.owner? x'))
      n.inputs n'.inputs)
    (hpadding : paddings'.outputPadding n'.id = paddings.outputPadding n.id)
    (hin : ∀ x ∈ n.inputs, x ∉ n.outputs) (hin' : ∀ x ∈ n'.inputs, x ∉ n'.outputs)
    (hlower : r.lowerNode o m paddings n = .ok r₁) :
    ∃ r₁', r'.lowerNode o m' paddings' n' = .ok r₁' ∧ Alongside k w r₁.table r₁'.table := by
  have hmirrors : (r.context o m paddings n).Mirrors k (r'.context o m' paddings' n') :=
    ⟨⟨howners, .none⟩, fun id _ ht => (htensor id).trans ht, rfl, hnode, hpadding, rfl, rfl⟩
  have hid : n'.id = n.id := by rw [hnode]; rfl
  have hnew : BlockRun.Numbered k (r.context o m paddings n) (r'.context o m' paddings' n')
      r₁.table.nextId := by
    intro j name p _
    change k.Pairs ⟨r.table.nextId + j, n.id, name, p⟩ ⟨r'.table.nextId + j, n'.id, name, _⟩
    rw [h.nextId, hid, hk.number, Primitive.renumber_id]
    exact hk.refl _
  obtain ⟨r₁', sent, sent', owner, owner', hlower', hl, hl', hsent, howner⟩ :=
    lowerNode_follows hreg hmirrors hin hin' hnew hlower
  have houtputs : n'.outputs = n.outputs := by rw [hnode]; rfl
  exact ⟨r₁', hlower', h.lowered hl hl' houtputs hsent howner⟩

/-- Nodes that have nothing to do with `w` keep the runs alongside. -/
theorem Alongside.foldlM {nodes : List Node} (h : Alongside k w r.table r'.table)
    (hnodes : ∀ n ∈ nodes, Bystander w paddings paddings' n)
    (hrun : nodes.foldlM (Run.lowerNode o m paddings) r = .ok r₁) :
    ∃ r₁', nodes.foldlM (Run.lowerNode o m' paddings') r' = .ok r₁' ∧
      Alongside k w r₁.table r₁'.table := by
  induction nodes generalizing r r' with
  | nil =>
      cases hrun
      exact ⟨r', rfl, h⟩
  | cons n rest ih =>
      rw [List.foldlM_cons, bind_eq_ok_iff] at hrun
      obtain ⟨r₂, hlower, hrest⟩ := hrun
      obtain ⟨⟨hread, _⟩, hloop, hpadding⟩ := hnodes n List.mem_cons_self
      have howners : List.Forall₂ (fun x x' => Option.Rel k.Pairs (r.table.owner? x)
          (r'.table.owner? x')) n.inputs n.inputs :=
        List.forall₂_same.mpr fun x hx => h.owner x fun heq => hread (heq ▸ hx)
      obtain ⟨r₂', hlower', h₂⟩ :=
        h.lowerNode hk hreg htensor rfl howners hpadding hloop hloop hlower
      obtain ⟨r₁', hrest', h₁⟩ := ih h₂ (fun k hk => hnodes k (List.mem_cons_of_mem _ hk)) hrest
      refine ⟨r₁', ?_, h₁⟩
      rw [List.foldlM_cons, hlower']
      exact hrest'

end runs

/-! ### Outputs -/

/-- The output of the network that a node of the order gives rise to. -/
def Plan.output? (order : List Node) (table : Ownership) (n : Node) : Option PlanOutput :=
  if Plan.isTerminal order n then
    n.firstOutput?.bind fun value => (table.owner? value).map fun q => ⟨value, q⟩
  else none

theorem outputsOf_eq (order : List Node) (table : Ownership) :
    Plan.outputsOf order table = order.filterMap (Plan.output? order table) := by
  unfold Plan.outputsOf
  rw [List.filterMap_filter]
  rfl

/-- The outputs have the same name, and plan nodes that correspond. -/
def PlanOutput.Matches (k : Correspondence) (a b : PlanOutput) : Prop :=
  b.name = a.name ∧ k.Pairs a.node b.node

theorem forall₂_filterMap {α β : Type} {S : α → α → Prop} {R : β → β → Prop} {f g : α → Option β}
    {xs ys : List α} (h : List.Forall₂ S xs ys) (hfg : ∀ x y, S x y → Option.Rel R (f x) (g y)) :
    List.Forall₂ R (xs.filterMap f) (ys.filterMap g) := by
  induction h with
  | nil => exact .nil
  | @cons x y _ _ hxy _ ih =>
      have hrel := hfg x y hxy
      rw [List.filterMap_cons, List.filterMap_cons]
      generalize f x = a at hrel
      generalize g y = b at hrel
      cases hrel with
      | some hab => exact .cons hab ih
      | none => exact ih

namespace Model.Splits

variable {m m' : Model} {pre post : List Node} {c u v : Node} {w : String}
variable (h : m.Splits m' pre c u v post w)
include h

section outputs
variable {k : Correspondence} {t t' : Ownership} {order order' : List Node}

theorem isTerminal_eq {n n' : Node} (hs : Stands pre c v post n n')
    (hread : AgreeOff w (order.flatMap Node.inputs) (order'.flatMap Node.inputs)) :
    Plan.isTerminal order' n' = Plan.isTerminal order n := by
  have houtputs : n'.outputs = n.outputs := by
    cases hs with
    | other _ => rfl
    | last => exact h.outputs
  unfold Plan.isTerminal
  rw [houtputs, Bool.eq_iff_iff, List.all_eq_true, List.all_eq_true]
  refine forall₂_congr fun x hx => ?_
  have hne : x ≠ w := by
    rintro rfl
    exact (h.fresh n (h.mem_of_stands hs).1).2 hx
  simp only [List.contains_eq_mem, hread x hne]

theorem output?_rel {n n' : Node} (hs : Stands pre c v post n n')
    (hread : AgreeOff w (order.flatMap Node.inputs) (order'.flatMap Node.inputs))
    (ha : Alongside k w t t') :
    Option.Rel (PlanOutput.Matches k) (Plan.output? order t n) (Plan.output? order' t' n') := by
  unfold Plan.output?
  rw [h.isTerminal_eq hs hread, h.firstOutput?_eq hs]
  split
  · cases hx : n.firstOutput? with
    | none => exact .none
    | some x =>
        have hne : x ≠ w := by
          rintro rfl
          exact (h.fresh n (h.mem_of_stands hs).1).2 (List.mem_of_mem_head? hx)
        have howner := ha.owner x hne
        rw [Option.bind_some, Option.bind_some]
        generalize t.owner? x = a at howner
        generalize t'.owner? x = b at howner
        cases howner with
        | some hpair => exact .some ⟨rfl, hpair⟩
        | none => exact .none
  · exact .none

/-- The outputs of the network stay, since the link is read. -/
theorem outputs_rel {before middle after : List Node}
    (hothers : ∀ n ∈ before ++ (middle ++ after), Stands pre c v post n n) (ha : Alongside k w t t') :
    List.Forall₂ (PlanOutput.Matches k) (Plan.outputsOf (before ++ (middle ++ c :: after)) t)
      (Plan.outputsOf (before ++ u :: (middle ++ v :: after)) t') := by
  have hread := h.agreeOff_inputs before middle after
  have hu : Plan.output? (before ++ u :: (middle ++ v :: after)) t' u = none := by
    unfold Plan.output? Plan.isTerminal
    rw [if_neg]
    have hw := h.w_mem
    simp [h.link, hw]
  have hstands : List.Forall₂ (Stands pre c v post) (before ++ (middle ++ c :: after))
      (before ++ (middle ++ v :: after)) := by
    simp only [List.mem_append] at hothers
    refine List.rel_append (List.forall₂_same.mpr fun n hn => hothers n (.inl hn)) ?_
    refine List.rel_append (List.forall₂_same.mpr fun n hn => hothers n (.inr (.inl hn))) ?_
    exact .cons .last (List.forall₂_same.mpr fun n hn => hothers n (.inr (.inr hn)))
  have hrel := forall₂_filterMap hstands fun n n' hs => h.output?_rel hs hread ha
  rw [outputsOf_eq, outputsOf_eq]
  simp only [List.filterMap_append, List.filterMap_cons_none hu] at hrel ⊢
  exact hrel

end outputs

/-! ### Plans -/

section plans
variable {k : Correspondence} {o : Options} {name : String} {p : Plan}

omit h in
theorem requirements_ne_none_of_scheduled (hm : m.Consistent)
    (hc : c ∈ (scheduleWithout m m.propagation.isCyclic).order) : m.requirements c ≠ none := by
  obtain ⟨hmem, _, hcyclic⟩ := mem_of_mem_order hc
  rw [isCyclic_propagation hm hmem, Option.isNone_eq_false_iff, ← Option.ne_none_iff_isSome] at hcyclic
  exact hcyclic

variable (hm : m.Consistent) (hm' : m'.Consistent) (hf : Faithful m m' c u v w)
variable (hc : c ∈ (scheduleWithout m m.propagation.isCyclic).order)
include hm hm' hf hc

theorem bystanders {before middle after : List Node}
    (horder : (scheduleWithout m m.propagation.isCyclic).order = before ++ (middle ++ c :: after)) :
    ∀ n ∈ before ++ (middle ++ after), Bystander w m.propagation m'.propagation n := by
  intro n hn
  have hs := h.stands_others (order_ids_nodup hm _) (fun n hn => (mem_of_mem_order hn).1) horder n hn
  have hmem : n ∈ (scheduleWithout m m.propagation.isCyclic).order := by
    rw [horder]
    simp only [List.mem_append, List.mem_cons] at hn ⊢
    tauto
  obtain ⟨hnode, _, hcyclic⟩ := mem_of_mem_order hmem
  refine ⟨h.fresh n hnode, fun x hx => not_mem_outputs_of_mem_inputs hm hmem hx, ?_⟩
  exact h.outputPadding_eq hm hm' hf (requirements_ne_none_of_scheduled hm hc) hs hcyclic

theorem schedules_apart : ∃ before middle after, ScheduledApart c u v
    (scheduleWithout m m.propagation.isCyclic) (scheduleWithout m' m'.propagation.isCyclic)
    before middle after := by
  have hreq := requirements_ne_none_of_scheduled hm hc
  have hu := h.isCyclic_u hm hm' hf hreq
  have hv := h.isCyclic_v hm hm' hf hreq
  rw [h.isCyclic_eq hm hm' hf hreq] at hu hv ⊢
  exact h.scheduled hm hu hv hc

end plans

end Model.Splits

/-- The plans leave out the same nodes, and have plan nodes and outputs that correspond. -/
structure Plan.Resembles (k : Correspondence) (p p' : Plan) : Prop where
  dropped : p'.dropped = p.dropped
  nodes : List.Forall₂ k.Pairs p.nodes p'.nodes
  outputs : List.Forall₂ (PlanOutput.Matches k) p.outputs p'.outputs

/-- The second plan is made from the first by lowering the halves of a node for the whole. -/
structure Plan.SplitInto (k : Correspondence) (p p' : Plan) (c u v : Node) : Prop
    extends p.Resembles k p' where
  order : ∃ before middle after, p.order = before ++ (middle ++ c :: after) ∧
    p'.order = before ++ u :: (middle ++ v :: after)

namespace Model.Splits

variable {m m' : Model} {pre post : List Node} {c u v : Node} {w : String}
variable {k : Correspondence} {o : Options} {name : String} {p : Plan}

/-- There is a plan after the split if the halves can be lowered for the whole. -/
theorem exists_plan (h : m.Splits m' pre c u v post w) (hm : m.Consistent) (hm' : m'.Consistent)
    (hf : Faithful m m' c u v w) (hplan : plan o name m = .ok p) (hc : c ∈ p.order)
    (hrun : ∀ before middle after start start' final, ScheduledApart c u v
      (scheduleWithout m m.propagation.isCyclic) (scheduleWithout m' m'.propagation.isCyclic)
      before middle after → start'.table = {} → Planned o m p m.propagation start final →
      ∃ final', (before ++ u :: (middle ++ v :: after)).foldlM (Run.lowerNode o m' m'.propagation) start' =
        .ok final' ∧ Alongside k w final.table final'.table) :
    ∃ p', plan o name m' = .ok p' ∧ p.SplitInto k p' c u v := by
  obtain ⟨paddings, start, final, hp, hne, hdropped, houtputs⟩ := plan_parts hplan
  obtain ⟨hagree, rfl⟩ := propagate_eq_ok_iff.mp hp.propagated
  rw [hp.order] at hc
  have hreq := requirements_ne_none_of_scheduled hm hc
  obtain ⟨before, middle, after, hapart⟩ := h.schedules_apart hm hm' hf hc
  have hprop' : propagate o.strictPadding m' = .ok m'.propagation :=
    propagate_eq_ok_iff.mpr ⟨fun hs => h.agree hm hm' hf hreq (hagree hs), rfl⟩
  obtain ⟨p', hplan', horder', hdropped', halong, houtputs'⟩ := NetLowering.exists_plan name
    (P := fun t => Alongside k w final.table t) hprop' (by rw [hapart.order']; simp)
    fun start' hempty => by
      rw [hapart.order']
      exact hrun before middle after start start' final hapart hempty hp
  have horder : p.order = before ++ (middle ++ c :: after) := hp.order.trans hapart.order
  rw [hapart.order'] at horder'
  refine ⟨p', hplan', ⟨?_, ?_, ?_⟩, before, middle, after, horder, horder'⟩
  · have hcyclic := h.cyclic_eq hm hm' hf hreq
    rw [hdropped, hdropped', hapart.dropped]
    unfold Propagation.dropped
    rw [hcyclic]
  · unfold Plan.nodes
    rw [hp.table]
    exact halong.nodes
  · have hothers := h.stands_others (order_ids_nodup hm _) (fun n hn => (mem_of_mem_order hn).1)
      hapart.order
    rw [houtputs, houtputs', horder, horder', hp.table]
    exact h.outputs_rel hothers halong

end Model.Splits

end NetLowering
