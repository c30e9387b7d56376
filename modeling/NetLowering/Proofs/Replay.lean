import Mathlib.Data.List.Perm.Basic
import NetLowering.Proofs.Lockstep
import NetLowering.Proofs.Numbering
import NetLowering.Proofs.Requirements

/-! # Replaying plans

The nodes that a model lowers may have been lowered before, in other models that have plans. If each node
takes what it reads from nodes of the same plan, those plans can be replayed in the order of the model: when
the turn of a node comes, the owners of its inputs are the ones it had, under new numbers, so it emits what
it emitted (`Composed.replay`). The numbers are known beforehand, as positions among all that is emitted
along the order (`numberAlong`). -/

namespace NetLowering

/-- The nodes of a model in the order they are lowered. -/
def Model.loweringOrder (m : Model) : List Node := (scheduleWithout m m.propagation.isCyclic).order

/-- What a plan is made of, with the paddings in one piece. -/
theorem plan_settled {o : Options} {name : String} {m : Model} {p : Plan} (h : plan o name m = .ok p) :
    (o.strictPadding = true → ∀ n ∈ m.nodes, m.conflict? n = none) ∧
      (∃ start final, Planned o m p m.propagation start final) ∧ p.order = m.loweringOrder ∧
      p.order ≠ [] ∧
      p.dropped = m.propagation.dropped ++ (scheduleWithout m m.propagation.isCyclic).dropped ∧
      p.outputs = Plan.outputsOf p.order p.table := by
  obtain ⟨paddings, start, final, hp, hne, hdropped, houtputs⟩ := plan_parts h
  obtain ⟨hagree, rfl⟩ := propagate_eq_ok_iff.mp hp.propagated
  exact ⟨hagree, ⟨start, final, hp⟩, hp.order, hne, hdropped, houtputs⟩

/-! ### What the nodes of a plan emitted -/

section emitted
variable {o : Options} {m : Model} {p : Plan} {paddings : Propagation} {start final r r' : Run}
variable {nodes : List Node} {n : Node}

theorem nodes_eq_flatMap (hids : (nodes.map Node.id).Nodup)
    (hfresh : ∀ n ∈ nodes, r.table.emitted n.id = [])
    (h : nodes.foldlM (Run.lowerNode o m paddings) r = .ok r') :
    r'.table.nodes = r.table.nodes ++ nodes.flatMap fun n => r'.table.emitted n.id := by
  induction nodes generalizing r with
  | nil => cases h; simp
  | cons n rest ih =>
      rw [List.foldlM_cons, bind_eq_ok_iff] at h
      obtain ⟨r₁, hn, hrest⟩ := h
      rw [List.map_cons, List.nodup_cons] at hids
      obtain ⟨sent, owner, hl⟩ := lowerNode_lowered hn
      have hne (k : Node) (hk : k ∈ rest) : k.id ≠ n.id := by
        intro hid
        exact hids.1 (hid ▸ List.mem_map_of_mem hk)
      have hsent : r'.table.emitted n.id = sent := by
        rw [emitted_frame hne hrest, hl.emitted, hfresh n List.mem_cons_self, if_pos rfl,
          List.nil_append]
      rw [ih hids.2 (fun k hk => ?_) hrest, hl.nodes, List.flatMap_cons, hsent, List.append_assoc]
      rw [hl.emitted, hfresh k (List.mem_cons_of_mem _ hk), if_neg (hne k hk).symm]
      rfl

theorem Planned.nodes_eq (hm : m.Consistent) (hp : Planned o m p paddings start final) :
    p.nodes = p.order.flatMap fun n => p.table.emitted n.id := by
  have hids := order_ids_nodup hm paddings.isCyclic
  rw [← hp.order] at hids
  have hnodes := nodes_eq_flatMap hids (fun n _ => by rw [hp.empty]; rfl) hp.run
  rw [hp.empty] at hnodes
  unfold Plan.nodes
  rw [hp.table]
  exact hnodes

end emitted

/-! ### Sources -/

/-- The nodes that `m` lowers are those of the plans `source`, each in the plan of its side. What a node reads
comes from its own side, and there it finds the tensors and the padding that it finds in `m`. -/
structure Composed {ι : Type} [DecidableEq ι] (o : Options) (m : Model) (part : ι → Model)
    (source : ι → Plan) (side : Node → ι) : Prop where
  whole : m.Consistent
  parts : ∀ i, (part i).Consistent
  planned : ∀ i, ∃ start final, Planned o (part i) (source i) (part i).propagation start final
  order : ∀ i, (source i).order.Perm (m.loweringOrder.filter fun n => side n = i)
  linked : ∀ n ∈ m.loweringOrder, ∀ k ∈ m.loweringOrder, ∀ x ∈ n.inputs, x ∈ k.outputs → side k = side n
  tensor : ∀ i id t, (part i).tensor? id = some t → m.tensor? id = some t
  padding : ∀ n ∈ m.loweringOrder,
    m.propagation.outputPadding n.id = (part (side n)).propagation.outputPadding n.id

section sources
variable {ι : Type} [DecidableEq ι] {o : Options} {m : Model} {part : ι → Model} {source : ι → Plan}
variable {side : Node → ι} {n : Node}

theorem Composed.mem_order_iff (h : Composed o m part source side) {i : ι} :
    n ∈ (source i).order ↔ n ∈ m.loweringOrder ∧ side n = i := by
  rw [(h.order i).mem_iff, List.mem_filter, decide_eq_true_iff]

/-- The plan nodes that the sources emit along an order of the logical nodes, by side and number. -/
def emissionsAlong (source : ι → Plan) (side : Node → ι) (order : List Node) : List (ι × Nat) :=
  order.flatMap fun n => ((source (side n)).table.emitted n.id).map fun q => (side n, q.id)

/-- The number of a plan node among all that is emitted along an order of the logical nodes. -/
def numberAlong (source : ι → Plan) (side : Node → ι) (order : List Node) (i : ι) (k : Nat) : Nat :=
  (emissionsAlong source side order).idxOf (i, k) + 1

theorem filter_emissionsAlong (source : ι → Plan) (side : Node → ι) (order : List Node) (i : ι) :
    (emissionsAlong source side order).filter (fun e => e.1 = i) =
      (order.filter fun n => side n = i).flatMap fun n =>
        ((source i).table.emitted n.id).map fun q => (i, q.id) := by
  induction order with
  | nil => rfl
  | cons n rest ih =>
      unfold emissionsAlong at ih ⊢
      rw [List.flatMap_cons, List.filter_append, ih]
      by_cases hside : side n = i
      · rw [List.filter_cons_of_pos (by simpa using hside), List.flatMap_cons, hside]
        congr 1
        rw [List.filter_eq_self]
        intro e he
        obtain ⟨q, _, rfl⟩ := List.mem_map.mp he
        simp
      · rw [List.filter_cons_of_neg (by simpa using hside), List.filter_eq_nil_iff.mpr, List.nil_append]
        intro e he
        obtain ⟨q, _, rfl⟩ := List.mem_map.mp he
        simpa using hside

theorem Composed.emissionsAlong_nodup (h : Composed o m part source side) :
    (emissionsAlong source side m.loweringOrder).Nodup := by
  -- side by side: within a side the numbers are those of its plan
  have hside (i : ι) : ((emissionsAlong source side m.loweringOrder).filter fun e => e.1 = i).Nodup := by
    obtain ⟨start, final, hp⟩ := h.planned i
    have hids := hp.ordered.ids_nodup
    rw [show (source i).table.nodes = (source i).nodes from rfl, hp.nodes_eq (h.parts i)] at hids
    have hpairs := hids.map (f := fun k => (i, k)) fun a b hab => (Prod.mk.inj hab).2
    rw [filter_emissionsAlong]
    refine ((h.order i).flatMap_right _).nodup_iff.mp ?_
    rw [List.map_flatMap, List.map_flatMap] at hpairs
    simpa [Function.comp_def] using hpairs
  rw [List.nodup_iff_count_le_one]
  rintro ⟨i, k⟩
  rw [← List.count_filter (p := fun e => e.1 = i) (by simp)]
  exact List.nodup_iff_count_le_one.mp (hside i) (i, k)

theorem Composed.numberAlong_eq (h : Composed o m part source side) {pre post : List Node}
    (hsplit : m.loweringOrder = pre ++ n :: post) {j : Nat} {q : PlanNode}
    (hq : ((source (side n)).table.emitted n.id)[j]? = some q) :
    numberAlong source side m.loweringOrder (side n) q.id =
      (pre.flatMap fun k => (source (side k)).table.emitted k.id).length + 1 + j := by
  have hlength : (emissionsAlong source side pre).length =
      (pre.flatMap fun k => (source (side k)).table.emitted k.id).length := by
    simp [emissionsAlong, List.length_flatMap]
  have hget : (emissionsAlong source side m.loweringOrder)[
      (pre.flatMap fun k => (source (side k)).table.emitted k.id).length + j]? = some (side n, q.id) := by
    have hj : j < (((source (side n)).table.emitted n.id).map fun q => (side n, q.id)).length := by
      rw [List.length_map]
      exact (List.getElem?_eq_some_iff.mp hq).1
    rw [← hlength, hsplit]
    unfold emissionsAlong
    rw [List.flatMap_append, List.flatMap_cons, List.getElem?_append_right (Nat.le_add_right _ _),
      Nat.add_sub_cancel_left, List.getElem?_append_left hj, List.getElem?_map, hq]
    rfl
  obtain ⟨hlt, hget⟩ := List.getElem?_eq_some_iff.mp hget
  unfold numberAlong
  rw [← hget, h.emissionsAlong_nodup.idxOf_getElem]
  omega

end sources

/-! ### Replays -/

/-- Plan nodes stand for the same ones under other numbers. -/
def Correspondence.renumbering (ρ : Nat → Nat) : Correspondence where
  number := ρ
  Pairs q q' := q' = q.renumber ρ
  reads := by rintro q _ rfl; rfl

theorem Correspondence.map_renumber {ρ : Nat → Nat} {qs qs' : List PlanNode}
    (h : List.Forall₂ (renumbering ρ).Pairs qs qs') : qs' = qs.map (PlanNode.renumber ρ) := by
  induction h with
  | nil => rfl
  | cons hq _ ih => rw [List.map_cons, ← ih, hq]

section replays
variable {ι : Type}

/-- The table holds what the nodes `pre` have in the plans of their sides, under other numbers. -/
structure Ownership.Repeats (t : Ownership) (source : ι → Plan) (side : Node → ι) (ρ : ι → Nat → Nat)
    (pre : List Node) : Prop where
  nodes : t.nodes = pre.flatMap fun n =>
    ((source (side n)).table.emitted n.id).map (PlanNode.renumber (ρ (side n)))
  emitted : ∀ n ∈ pre, t.emitted n.id =
    ((source (side n)).table.emitted n.id).map (PlanNode.renumber (ρ (side n)))
  owner : ∀ n ∈ pre, ∀ x ∈ n.outputs, t.owner? x =
    ((source (side n)).table.owner? x).map (PlanNode.renumber (ρ (side n)))

variable [DecidableEq ι] {o : Options} {m : Model} {part : ι → Model} {source : ι → Plan}
variable {side : Node → ι} {ρ : ι → Nat → Nat} {start before after r : Run} {n : Node}
variable {done rest pre post : List Node}
variable (h : Composed o m part source side) (hr : r.table.Repeats source side ρ done)
variable (hrun : done.foldlM (Run.lowerNode o m m.propagation) start = .ok r) (hempty : start.table = {})
variable (hsplit : m.loweringOrder = done ++ n :: rest)
variable (hs : Stage o (part (side n)) (part (side n)).propagation (source (side n)) pre n before after)
include h hr hsplit

section stages
include hs

include hrun hempty in
/-- The owners of the inputs of a node are those it has in its plan. -/
theorem Ownership.Repeats.owners (hpart : (source (side n)).order = pre ++ n :: post) {x : String}
    (hx : x ∈ n.inputs) : Option.Rel (Correspondence.renumbering (ρ (side n))).Pairs
      (before.table.owner? x) (r.table.owner? x) := by
  have hn : n ∈ m.loweringOrder := by rw [hsplit]; simp
  by_cases hproduced : ∃ k ∈ (source (side n)).order, x ∈ k.outputs
  · obtain ⟨k, hk, hxk⟩ := hproduced
    obtain ⟨hkm, hside⟩ := h.mem_order_iff.mp hk
    obtain ⟨_, _, hp⟩ := h.planned (side n)
    have hpre : k ∈ pre :=
      mem_before_of_mem_outputs (h.parts _) (hp.order.symm.trans hpart) hx (hp.order ▸ hk) hxk
    have hdone : k ∈ done := mem_before_of_mem_outputs h.whole hsplit hx hkm hxk
    obtain ⟨q, hq⟩ := (hs.owned x).mpr ⟨k, hpre, hxk⟩
    rw [hr.owner k hdone x hxk, hside, hs.kept x q hq, hq]
    exact .some rfl
  · have hnone : before.table.owner? x = none := by
      rw [Option.eq_none_iff_forall_ne_some]
      intro q hq
      obtain ⟨k, hk, hxk⟩ := (hs.owned x).mp ⟨q, hq⟩
      exact hproduced ⟨k, by rw [hpart]; exact List.mem_append_left _ hk, hxk⟩
    have hnone' : r.table.owner? x = none := by
      rw [owner?_frame (fun k hk hxk => hproduced ⟨k, ?_, hxk⟩) hrun, hempty]
      · rfl
      · have hkm : k ∈ m.loweringOrder := by rw [hsplit]; exact List.mem_append_left _ hk
        exact h.mem_order_iff.mpr ⟨hkm, h.linked n hn k hkm x hx hxk⟩
    rw [hnone, hnone']
    exact .none

/-- The numbers a node was given, and those it is given along the order. -/
theorem Ownership.Repeats.numbered (hρ : ρ = numberAlong source side m.loweringOrder)
    (hordered : before.table.Ordered) : BlockRun.Numbered (.renumbering (ρ (side n)))
      (before.context o (part (side n)) (part (side n)).propagation n)
      (r.context o m m.propagation n) after.table.nextId := by
  intro j name primitive hj
  obtain ⟨sent, owner, hl⟩ := lowerNode_lowered hs.lowered
  have hlt : j < sent.length := by
    change before.table.nextId + j < after.table.nextId at hj
    rw [hl.nextId] at hj
    omega
  have hid : sent[j].id = before.table.nextId + j := by
    have hget := List.getElem?_map (f := PlanNode.id) (l := sent) (i := j)
    rw [hl.numbers (lowerNode_ordered hordered hs.lowered), List.getElem?_range' hlt,
      List.getElem?_eq_getElem hlt, Option.map_some] at hget
    have hsame := Option.some.inj hget
    omega
  have hnext : r.table.nextId =
      (done.flatMap fun k => (source (side k)).table.emitted k.id).length + 1 := by
    have hlen : r.table.emissions.length = r.table.nodes.length := (List.length_map _).symm
    unfold Ownership.nextId
    rw [hlen, hr.nodes]
    simp [List.length_flatMap]
  have hnumber : ρ (side n) (before.table.nextId + j) = r.table.nextId + j := by
    rw [← hid, hnext, hρ]
    refine h.numberAlong_eq hsplit ?_
    rw [(hs.lowering hl).1]
    exact List.getElem?_eq_getElem hlt
  change PlanNode.mk (r.table.nextId + j) _ _ _ =
    PlanNode.mk (ρ (side n) (before.table.nextId + j)) _ _ _
  rw [hnumber]
  rfl

end stages

include hrun hempty in
/-- When its turn comes, a node can be lowered again. -/
theorem Ownership.Repeats.step (hreg : o.registry = .standard)
    (hρ : ρ = numberAlong source side m.loweringOrder) :
    ∃ r₁, r.lowerNode o m m.propagation n = .ok r₁ ∧ r₁.table.Repeats source side ρ (done ++ [n]) := by
  have hn : n ∈ m.loweringOrder := by rw [hsplit]; simp
  obtain ⟨pre, post, hpart⟩ := List.append_of_mem (h.mem_order_iff.mpr ⟨hn, rfl⟩)
  obtain ⟨_, _, hp⟩ := h.planned (side n)
  obtain ⟨before, after, hs, hordered⟩ := hp.stage_ordered (h.parts _) hpart
  have hin : ∀ x ∈ n.inputs, x ∉ n.outputs := fun x => not_mem_outputs_of_mem_inputs h.whole hn
  have howners : ∀ x ∈ n.inputs, Option.Rel (Correspondence.renumbering (ρ (side n))).Pairs
      (before.table.owner? x) (r.table.owner? x) :=
    fun x => hr.owners h hrun hempty hsplit hs hpart
  have hmirrors : (before.context o (part (side n)) (part (side n)).propagation n).Mirrors
      (.renumbering (ρ (side n))) (r.context o m m.propagation n) :=
    ⟨⟨List.forall₂_same.mpr howners, .none⟩, h.tensor _, rfl, rfl, h.padding n hn, rfl, rfl⟩
  obtain ⟨r₁, sent, sent', owner, owner', hlower, hl, hl', hpairs, howner⟩ :=
    lowerNode_follows hreg hmirrors hin hin (hr.numbered h hsplit hs hρ hordered) hs.lowered
  obtain ⟨hsent, houtputs⟩ := hs.lowering hl
  have hsent' := Correspondence.map_renumber hpairs
  rw [← hsent] at hsent'
  have hids := order_ids_nodup h.whole m.propagation.isCyclic
  rw [← Model.loweringOrder, hsplit, List.map_append, List.nodup_append] at hids
  have hne (k : Node) (hk : k ∈ done) : k.id ≠ n.id :=
    hids.2.2 _ (List.mem_map_of_mem hk) _ List.mem_cons_self
  refine ⟨r₁, hlower, ?_, ?_, ?_⟩
  · rw [hl'.nodes, hr.nodes, hsent']
    simp
  · intro k hk
    rw [hl'.emitted]
    rcases List.mem_append.mp hk with hk | hk
    · rw [if_neg (hne k hk).symm, List.append_nil, hr.emitted k hk]
    · rw [List.mem_singleton.mp hk, if_pos rfl, emitted_frame hne hrun, hempty, hsent']
      rfl
  · intro k hk x hx
    rw [hl'.owner_eq]
    rcases List.mem_append.mp hk with hk | hk
    · have hkm : k ∈ m.loweringOrder := by rw [hsplit]; exact List.mem_append_left _ hk
      have hxn : x ∉ n.outputs := by
        intro hxn
        have hsame := h.whole.eq_of_mem_outputs (mem_of_mem_order hkm).1 (mem_of_mem_order hn).1 hx hxn
        exact hne k hk (congrArg Node.id hsame)
      rw [if_neg hxn, hr.owner k hk x hx]
    · rw [List.mem_singleton.mp hk] at hx ⊢
      rw [if_pos hx, houtputs x hx, howner]
      rfl

omit hr hsplit in
include hempty in
/-- The plans can be lowered again in the order of the model. -/
theorem Composed.replay (hreg : o.registry = .standard) :
    ∃ final, m.loweringOrder.foldlM (Run.lowerNode o m m.propagation) start = .ok final ∧
      final.table.Repeats source side (numberAlong source side m.loweringOrder) m.loweringOrder := by
  have hprefix : ∀ done rest, m.loweringOrder = done ++ rest → ∃ r,
      done.foldlM (Run.lowerNode o m m.propagation) start = .ok r ∧
        r.table.Repeats source side (numberAlong source side m.loweringOrder) done := by
    intro done
    induction done using List.reverseRecOn with
    | nil =>
        intro rest _
        refine ⟨start, rfl, ?_, ?_, ?_⟩
        · rw [hempty]; rfl
        · intro k hk; cases hk
        · intro k hk; cases hk
    | append_singleton init n ih =>
        intro rest hsplit
        rw [List.append_assoc] at hsplit
        obtain ⟨r, hrun, hr⟩ := ih _ hsplit
        obtain ⟨r₁, hlower, hr₁⟩ := hr.step h hrun hempty hsplit hreg rfl
        exact ⟨r₁, foldlM_concat hrun hlower, hr₁⟩
  exact hprefix _ [] (List.append_nil _).symm

omit hr hsplit in
theorem Composed.exists_plan (name : String) (hreg : o.registry = .standard)
    (hprop : propagate o.strictPadding m = .ok m.propagation) (hne : m.loweringOrder ≠ []) :
    ∃ p, plan o name m = .ok p ∧ p.order = m.loweringOrder ∧
      p.dropped = m.propagation.dropped ++ (scheduleWithout m m.propagation.isCyclic).dropped ∧
      p.table.Repeats source side (numberAlong source side m.loweringOrder) m.loweringOrder ∧
      p.outputs = Plan.outputsOf p.order p.table :=
  NetLowering.exists_plan name
    (P := fun t => t.Repeats source side (numberAlong source side m.loweringOrder) m.loweringOrder)
    hprop hne fun _ hempty => h.replay hempty hreg

end replays

/-! ### Outputs -/

def PlanOutput.renumber (ρ : Nat → Nat) (output : PlanOutput) : PlanOutput :=
  { output with node := output.node.renumber ρ }

/-- The first output of a node, under its owner. -/
def Ownership.firstOutput? (t : Ownership) (n : Node) : Option PlanOutput :=
  n.firstOutput?.bind fun value => (t.owner? value).map fun q => ⟨value, q⟩

theorem outputsOf_eq_filterMap (order : List Node) (t : Ownership) :
    Plan.outputsOf order t = (order.filter (Plan.isTerminal order)).filterMap t.firstOutput? := rfl

theorem filterMap_firstOutput? {nodes : List Node} {t t' : Ownership} {ρ : Nat → Nat}
    (howner : ∀ n ∈ nodes, ∀ x ∈ n.outputs, t'.owner? x = (t.owner? x).map (PlanNode.renumber ρ)) :
    nodes.filterMap t'.firstOutput? = (nodes.filterMap t.firstOutput?).map (PlanOutput.renumber ρ) := by
  rw [List.map_filterMap]
  refine List.filterMap_congr fun n hn => ?_
  unfold Ownership.firstOutput?
  cases hfirst : n.firstOutput? with
  | none => rfl
  | some x =>
      have hx : x ∈ n.outputs := List.mem_of_mem_head? hfirst
      rw [Option.bind_some, Option.bind_some, howner n hn x hx, Option.map_map, Option.map_map]
      rfl

end NetLowering
