import Mathlib
import NetLowering.Number.Interchange
import NetLowering.Proofs.Parts
import NetLowering.Proofs.Replay
import NetLowering.Proofs.Resolution

/-! # Independent models side by side

Two models that share no id and no value can be put together in one, their nodes interleaved in any way. Each
is then a part of the whole, so paddings and schedules are its own, and the plans of the two can be replayed
along the order of the whole (`Interleaves.composed`). What the whole plan has of a part is what the part has
by itself, under numbers that grow alike (`Composed.restrictsTo`). -/

namespace NetLowering

/-- The third list has the elements of the two others, each in their order. -/
inductive Interleaving {α : Type} : List α → List α → List α → Prop
  | nil : Interleaving [] [] []
  | left {x : α} {xs ys zs : List α} : Interleaving xs ys zs → Interleaving (x :: xs) ys (x :: zs)
  | right {y : α} {xs ys zs : List α} : Interleaving xs ys zs → Interleaving xs (y :: ys) (y :: zs)

namespace Interleaving
variable {α : Type} {xs ys zs : List α}

theorem symm (h : Interleaving xs ys zs) : Interleaving ys xs zs := by
  induction h with
  | nil => exact .nil
  | left _ ih => exact .right ih
  | right _ ih => exact .left ih

theorem perm (h : Interleaving xs ys zs) : zs.Perm (xs ++ ys) := by
  induction h with
  | nil => exact .refl _
  | left _ ih => exact ih.cons _
  | right _ ih => exact (ih.cons _).trans List.perm_middle.symm

theorem filter_eq (h : Interleaving xs ys zs) {keep : α → Bool} (hx : ∀ x ∈ xs, keep x = true)
    (hy : ∀ y ∈ ys, keep y = false) : zs.filter keep = xs := by
  induction h with
  | nil => rfl
  | left _ ih =>
      rw [List.filter_cons_of_pos (hx _ List.mem_cons_self),
        ih (fun x hmem => hx x (List.mem_cons_of_mem _ hmem)) hy]
  | right _ ih =>
      rw [List.filter_cons_of_neg (by rw [hy _ List.mem_cons_self]; exact Bool.false_ne_true),
        ih hx fun y hmem => hy y (List.mem_cons_of_mem _ hmem)]

end Interleaving

namespace Model

def names (m : Model) (id : String) : Bool := (m.node? id).isSome

/-- Whether a node of the model lists the value among its outputs. -/
def produces (m : Model) (x : String) : Bool := (m.producer? x).isSome

theorem names_iff {m : Model} {id : String} : m.names id = true ↔ id ∈ m.nodes.map Node.id := by
  rw [names, Option.isSome_iff_ne_none, ne_eq, node?_eq_none_iff, not_not]

theorem produces_iff {m : Model} {x : String} : m.produces x = true ↔ ∃ n ∈ m.nodes, x ∈ n.outputs := by
  rw [produces, Option.isSome_iff_ne_none, ne_eq, producer?_eq_none_iff]
  simp

/-! ### Models put together -/

/-- No node of the one model shares an id or a value with a node of the other. -/
structure Independent (a b : Model) : Prop where
  ids : ∀ n ∈ a.nodes, ∀ k ∈ b.nodes, n.id ≠ k.id
  values : ∀ n ∈ a.nodes, ∀ k ∈ b.nodes, ∀ x ∈ n.inputs ++ n.outputs, x ∉ k.inputs ++ k.outputs

theorem Independent.symm {a b : Model} (h : a.Independent b) : b.Independent a where
  ids n hn k hk heq := h.ids k hk n hn heq.symm
  values n hn k hk x hx hxk := h.values k hk n hn x hxk hx

/-- The model has the nodes of the two others, those of each in their order, and the tensors of both. -/
structure Interleaves (m a b : Model) : Prop where
  nodes : Interleaving a.nodes b.nodes m.nodes
  tensors : ∀ id t, m.tensor? id = some t ↔ a.tensor? id = some t ∨ b.tensor? id = some t

namespace Interleaves
variable {m a b : Model} (h : m.Interleaves a b) (hind : a.Independent b)

include h in
theorem symm : m.Interleaves b a := ⟨h.nodes.symm, fun id t => (h.tensors id t).trans or_comm⟩

include h in
theorem mem_nodes_iff {n : Node} : n ∈ m.nodes ↔ n ∈ a.nodes ∨ n ∈ b.nodes := by
  rw [h.nodes.perm.mem_iff, List.mem_append]

include hind in
theorem names_eq_false {n : Node} (hn : n ∈ b.nodes) : a.names n.id = false := by
  rw [Bool.eq_false_iff, ne_eq, names_iff, List.mem_map]
  rintro ⟨k, hk, hid⟩
  exact hind.ids k hk n hn hid

include h hind

theorem mem_iff_names {n : Node} (hn : n ∈ m.nodes) : a.names n.id = true ↔ n ∈ a.nodes := by
  constructor
  · intro hnames
    refine (h.mem_nodes_iff.mp hn).resolve_right fun hb => ?_
    rw [names_eq_false hind hb] at hnames
    cases hnames
  · intro ha
    exact names_iff.mpr (List.mem_map_of_mem ha)

theorem names_eq_not {n : Node} (hn : n ∈ m.nodes) : b.names n.id = !a.names n.id := by
  rcases h.mem_nodes_iff.mp hn with ha | hb
  · rw [names_eq_false hind.symm ha, names_iff.mpr (List.mem_map_of_mem ha)]
    rfl
  · rw [names_eq_false hind hb, names_iff.mpr (List.mem_map_of_mem hb)]
    rfl

theorem partOf : PartOf a m fun n => a.names n.id where
  nodes := (h.nodes.filter_eq (fun n hn => names_iff.mpr (List.mem_map_of_mem hn))
    fun n hn => names_eq_false hind hn).symm
  apart n hn hkeep k hk hout _ := by
    have ha := (h.mem_iff_names hind hn).mp hkeep
    have hb : k ∈ b.nodes := (h.mem_nodes_iff.mp hk).resolve_left fun hka => by
      rw [(h.mem_iff_names hind hk).mpr hka] at hout
      cases hout
    have hvalues := hind.values n ha k hb
    exact ⟨fun x hx hxk => hvalues x (List.mem_append_right _ hx) (List.mem_append_left _ hxk),
      fun x hxk hx => hvalues x (List.mem_append_left _ hx) (List.mem_append_right _ hxk)⟩

theorem consistent (ha : a.Consistent) (hb : b.Consistent) : m.Consistent := by
  have hperm := h.nodes.perm
  refine ⟨fun n hn => ?_, ?_, ?_, fun n hn => ?_⟩
  · exact (h.mem_nodes_iff.mp hn).elim (ha.named n) (hb.named n)
  · rw [(hperm.map _).nodup_iff, List.map_append, List.nodup_append]
    refine ⟨ha.ids_nodup, hb.ids_nodup, fun x hx y hy => ?_⟩
    obtain ⟨n, hn, rfl⟩ := List.mem_map.mp hx
    obtain ⟨k, hk, rfl⟩ := List.mem_map.mp hy
    exact hind.ids n hn k hk
  · rw [hperm.pairwise_iff fun {_ _} hxy x hx hx' => hxy x hx' hx, List.pairwise_append]
    refine ⟨ha.outputs_disjoint, hb.outputs_disjoint, fun n hn k hk x hx hxk => ?_⟩
    exact hind.values n hn k hk x (List.mem_append_right _ hx) (List.mem_append_right _ hxk)
  · exact (h.mem_nodes_iff.mp hn).elim (ha.padding_nonneg n) (hb.padding_nonneg n)

/-- Readers that agree in each of the two agree in the whole. -/
theorem conflict?_eq_none (hm : m.Consistent) (ha : ∀ n ∈ a.nodes, a.conflict? n = none)
    (hb : ∀ n ∈ b.nodes, b.conflict? n = none) : ∀ n ∈ m.nodes, m.conflict? n = none := by
  intro n hn
  rcases h.mem_nodes_iff.mp hn with hmem | hmem
  · rw [← (h.partOf hind).conflict?_eq hm hmem, ha n hmem]
  · rw [← (h.symm.partOf hind.symm).conflict?_eq hm hmem, hb n hmem]

end Interleaves

theorem PartOf.loweringOrder_eq {part m : Model} {keep : Node → Bool} (h : PartOf part m keep)
    (hm : m.Consistent) : part.loweringOrder = m.loweringOrder.filter keep :=
  h.order fun _ hn => h.isCyclic_eq hm hn

theorem PartOf.produces_eq {part m : Model} (h : PartOf part m fun n => part.names n.id)
    (hm : m.Consistent) {n : Node} (hn : n ∈ m.nodes) {x : String} (hx : x ∈ n.outputs) :
    part.produces x = part.names n.id := by
  rw [Bool.eq_iff_iff, produces_iff]
  constructor
  · rintro ⟨k, hk, hxk⟩
    obtain ⟨hk, hkeep⟩ := h.mem_nodes_iff.mp hk
    rw [← hm.eq_of_mem_outputs hk hn hxk hx]
    exact hkeep
  · intro hkeep
    exact ⟨n, h.mem_nodes_iff.mpr ⟨hn, hkeep⟩, hx⟩

/-- The plans of the two give the nodes of the whole. -/
theorem Interleaves.composed {m a b : Model} {o : Options} {name : String} {p q : Plan}
    (h : m.Interleaves a b) (hind : a.Independent b) (ha : a.Consistent) (hb : b.Consistent)
    (hp : plan o name a = .ok p) (hq : plan o name b = .ok q) :
    Composed o m (fun left => cond left a b) (fun left => cond left p q) fun n => a.names n.id := by
  have hm := h.consistent hind ha hb
  have hpart := h.partOf hind
  have hpart' := h.symm.partOf hind.symm
  obtain ⟨_, hplanned, horder, _⟩ := plan_settled hp
  obtain ⟨_, hplanned', horder', _⟩ := plan_settled hq
  refine ⟨hm, ?_, ?_, ?_, ?_, ?_, ?_⟩
  · rintro (_ | _)
    · exact hb
    · exact ha
  · rintro (_ | _)
    · exact hplanned'
    · exact hplanned
  · rintro (_ | _)
    · refine .of_eq (horder'.trans ((hpart'.loweringOrder_eq hm).trans (List.filter_congr fun n hn => ?_)))
      rw [h.names_eq_not hind (mem_of_mem_order hn).1]
      cases a.names n.id <;> rfl
    · refine .of_eq (horder.trans ((hpart.loweringOrder_eq hm).trans (List.filter_congr fun n hn => ?_)))
      cases a.names n.id <;> rfl
  · intro n hn k hk x hx hxk
    obtain ⟨hn, hskip, _⟩ := mem_of_mem_order hn
    obtain ⟨hk, hskip', _⟩ := mem_of_mem_order hk
    -- a value that links the two sides would leave the one part or the other
    cases hside : a.names n.id with
    | true =>
        by_contra hout
        exact (hpart.apart n hn hside k hk (Bool.eq_false_iff.mpr hout) hskip').2 x hxk hx
    | false =>
        by_contra hout
        exact (hpart.apart k hk (by simpa using hout) n hn hside hskip).1 x hxk hx
  · rintro (_ | _) id t ht
    · exact (h.tensors id t).mpr (.inr ht)
    · exact (h.tensors id t).mpr (.inl ht)
  · intro n hn
    obtain ⟨hn, _, hcyclic⟩ := mem_of_mem_order hn
    cases hside : a.names n.id with
    | true => exact (hpart.outputPadding_eq hm (hpart.mem_nodes_iff.mpr ⟨hn, hside⟩) hcyclic).symm
    | false =>
        have hside' : b.names n.id = true := by rw [h.names_eq_not hind hn, hside]; rfl
        exact (hpart'.outputPadding_eq hm (hpart'.mem_nodes_iff.mpr ⟨hn, hside'⟩) hcyclic).symm

end Model

/-! ### Restrictions -/

/-- What the plan `p` has of the nodes of a part is the plan `q`, under other numbers in the same order. -/
structure Plan.RestrictsTo (p : Plan) (part : Model) (ρ : Nat → Nat) (q : Plan) : Prop where
  order : p.order.filter (fun n => part.names n.id) = q.order
  dropped : p.dropped.filter (fun d => part.names d.id) = q.dropped
  nodes : p.nodes.filter (fun k => part.names k.group) = q.nodes.map (PlanNode.renumber ρ)
  outputs : p.outputs.filter (fun out => part.produces out.name) = q.outputs.map (PlanOutput.renumber ρ)
  increasing : ∀ k ∈ q.nodes, ∀ l ∈ q.nodes, k.id < l.id → ρ k.id < ρ l.id

theorem filter_group {nodes : List Node} {emitted : Node → List PlanNode} {test : String → Bool}
    (h : ∀ n ∈ nodes, ∀ q ∈ emitted n, q.group = n.id) :
    (nodes.flatMap emitted).filter (fun q => test q.group) =
      (nodes.filter fun n => test n.id).flatMap emitted := by
  induction nodes with
  | nil => rfl
  | cons n rest ih =>
      have hn := h n List.mem_cons_self
      rw [List.flatMap_cons, List.filter_append, ih fun k hk => h k (List.mem_cons_of_mem _ hk)]
      cases htest : test n.id with
      | true =>
          rw [List.filter_cons_of_pos (p := fun n : Node => test n.id) htest, List.flatMap_cons,
            List.filter_eq_self.mpr fun q hq => by rw [hn q hq, htest]]
      | false =>
          rw [List.filter_cons_of_neg (p := fun n : Node => test n.id) (Bool.eq_false_iff.mp htest),
            List.filter_eq_nil_iff.mpr fun q hq => by rw [hn q hq, htest]; simp,
            List.nil_append]

/-- Numbers under which a list in order stays in order grow with those they stand for. -/
theorem increasing_of_pairwise {nodes : List PlanNode} {ρ : Nat → Nat}
    (h : nodes.Pairwise fun k l => k.id < l.id) (hρ : nodes.Pairwise fun k l => ρ k.id < ρ l.id) :
    ∀ k ∈ nodes, ∀ l ∈ nodes, k.id < l.id → ρ k.id < ρ l.id := by
  induction nodes with
  | nil => intro k hk; cases hk
  | cons a rest ih =>
      rw [List.pairwise_cons] at h hρ
      intro k hk l hl hlt
      rcases List.mem_cons.mp hk with rfl | hk'
      · rcases List.mem_cons.mp hl with rfl | hl'
        · exact absurd hlt (Nat.lt_irrefl _)
        · exact hρ.1 l hl'
      · rcases List.mem_cons.mp hl with rfl | hl'
        · exact absurd hlt (Nat.not_lt_of_gt (h.1 k hk'))
        · exact ih h.2 hρ.2 k hk' l hl' hlt

theorem Ownership.Ordered.pairwise {t : Ownership} (h : t.Ordered) :
    t.nodes.Pairwise fun k l => k.id < l.id := by
  rw [← List.pairwise_map, h.numbered]
  exact List.pairwise_lt_range'

theorem mem_outputs_of_firstOutput? {t : Ownership} {n : Node} {out : PlanOutput}
    (h : t.firstOutput? n = some out) : out.name ∈ n.outputs := by
  obtain ⟨x, hx, howner⟩ := Option.bind_eq_some_iff.mp h
  obtain ⟨q, _, rfl⟩ := Option.map_eq_some_iff.mp howner
  exact List.mem_of_mem_head? hx

section restrictions
variable {ι : Type} [DecidableEq ι] {o : Options} {name : String} {m : Model} {part : ι → Model}
variable {source : ι → Plan} {side : Node → ι} {ρ : ι → Nat → Nat} {i : ι} {p : Plan}
variable (h : Composed o m part source side)
variable (hpart : Model.PartOf (part i) m fun n => (part i).names n.id)
variable (hplan : plan o name m = .ok p) (hsource : plan o name (part i) = .ok (source i))
variable (hrepeats : p.table.Repeats source side ρ m.loweringOrder)
include h hpart hplan hsource

theorem Composed.order_filter : p.order.filter (fun n => (part i).names n.id) = (source i).order := by
  obtain ⟨_, _, horder, _⟩ := plan_settled hplan
  obtain ⟨_, _, horder', _⟩ := plan_settled hsource
  rw [horder, horder', hpart.loweringOrder_eq h.whole]

theorem Composed.dropped_filter :
    p.dropped.filter (fun d => (part i).names d.id) = (source i).dropped := by
  obtain ⟨_, _, _, _, hdropped, _⟩ := plan_settled hplan
  obtain ⟨_, _, _, _, hdropped', _⟩ := plan_settled hsource
  have hreports : Model.PartOf.Reports m (fun n => (part i).names n.id) fun d => (part i).names d.id :=
    fun _ _ _ => rfl
  rw [hdropped, hdropped', List.filter_append, hpart.propagation_dropped h.whole hreports,
    hpart.dropped (fun n hn => hpart.isCyclic_eq h.whole hn) hreports]

include hrepeats

theorem Composed.nodes_filter :
    p.nodes.filter (fun k => (part i).names k.group) = (source i).nodes.map (PlanNode.renumber (ρ i)) := by
  obtain ⟨_, _, horder, _⟩ := plan_settled hplan
  obtain ⟨_, ⟨_, _, hp⟩, _⟩ := plan_settled hsource
  have hgroup : ∀ n ∈ m.loweringOrder, ∀ q ∈ ((source (side n)).table.emitted n.id).map
      (PlanNode.renumber (ρ (side n))), q.group = n.id := by
    intro n _ q hq
    obtain ⟨k, hk, rfl⟩ := List.mem_map.mp hq
    obtain ⟨_, _, hp⟩ := h.planned (side n)
    exact (hp.group_eq hk : k.group = n.id)
  unfold Plan.nodes
  rw [hrepeats.nodes, filter_group hgroup, ← horder, h.order_filter hpart hplan hsource, ← Plan.nodes,
    hp.nodes_eq (h.parts i), List.map_flatMap]
  refine List.flatMap_congr fun n hn => ?_
  rw [(h.mem_order_iff.mp hn).2]

theorem Composed.outputs_filter : p.outputs.filter (fun out => (part i).produces out.name) =
    (source i).outputs.map (PlanOutput.renumber (ρ i)) := by
  obtain ⟨_, _, horder, _, _, houtputs⟩ := plan_settled hplan
  obtain ⟨_, _, _, _, _, houtputs'⟩ := plan_settled hsource
  have hfilter := h.order_filter hpart hplan hsource
  have hmem : ∀ n ∈ p.order, n ∈ m.nodes ∧ n.kind ≠ .skip := by
    intro n hn
    rw [horder] at hn
    obtain ⟨hn, hskip, _⟩ := mem_of_mem_order hn
    exact ⟨hn, hskip⟩
  have hterminal : ∀ n ∈ p.order, (part i).names n.id = true →
      Plan.isTerminal (source i).order n = Plan.isTerminal p.order n := by
    intro n hn hkeep
    unfold Plan.isTerminal
    rw [Bool.eq_iff_iff, List.all_eq_true, List.all_eq_true]
    refine forall₂_congr fun x hx => ?_
    simp only [List.contains_eq_mem, ← hfilter, hpart.mem_inputs_filter hmem (hmem n hn).1 hkeep hx]
  have hproduces : ∀ n ∈ p.order.filter (Plan.isTerminal p.order),
      (p.table.firstOutput? n).filter (fun out => (part i).produces out.name) =
        if (part i).names n.id then p.table.firstOutput? n else none := by
    intro n hn
    cases hfirst : p.table.firstOutput? n with
    | none => rw [Option.filter_none, ite_self]
    | some out =>
        have hx := mem_outputs_of_firstOutput? hfirst
        rw [Option.filter_some, hpart.produces_eq h.whole (hmem n (List.mem_of_mem_filter hn)).1 hx]
  have howner : ∀ n ∈ (source i).order.filter (Plan.isTerminal (source i).order), ∀ x ∈ n.outputs,
      p.table.owner? x = ((source i).table.owner? x).map (PlanNode.renumber (ρ i)) := by
    intro n hn x hx
    obtain ⟨hn, hside⟩ := h.mem_order_iff.mp (List.mem_of_mem_filter hn)
    rw [hrepeats.owner n hn x hx, hside]
  rw [houtputs, houtputs', outputsOf_eq_filterMap, outputsOf_eq_filterMap, List.filter_filterMap,
    List.filterMap_congr hproduces, ← List.filterMap_filter, ← filter_within hterminal, hfilter,
    filterMap_firstOutput? howner]

/-- The plan of the whole, restricted to a part, is the plan of the part. -/
theorem Composed.restrictsTo : p.RestrictsTo (part i) (ρ i) (source i) := by
  obtain ⟨_, ⟨_, _, hp⟩, _⟩ := plan_settled hplan
  obtain ⟨_, ⟨_, _, hp'⟩, _⟩ := plan_settled hsource
  have hnodes := h.nodes_filter hpart hplan hsource hrepeats
  have hpairwise := hp.ordered.pairwise.filter fun k => (part i).names k.group
  rw [← Plan.nodes, hnodes, List.pairwise_map] at hpairwise
  exact ⟨h.order_filter hpart hplan hsource, h.dropped_filter hpart hplan hsource, hnodes,
    h.outputs_filter hpart hplan hsource hrepeats, increasing_of_pairwise hp'.ordered.pairwise hpairwise⟩

end restrictions

/-- Independent models do not interfere: if each of the two has a plan, so has any interleaving of them, and
what that plan has of the nodes of either is the plan it has by itself. -/
theorem plan_of_interleaving (o : Options) (name : String) (m m₁ m₂ : Model) (p₁ p₂ : Plan)
    (hm₁ : m₁.Reachable) (hm₂ : m₂.Reachable) (hind : m₁.Independent m₂) (hmix : m.Interleaves m₁ m₂)
    (hreg : o.registry = .standard) (h₁ : plan o name m₁ = .ok p₁) (h₂ : plan o name m₂ = .ok p₂) :
    ∃ p, plan o name m = .ok p ∧ (∃ ρ, p.RestrictsTo m₁ ρ p₁) ∧ ∃ ρ, p.RestrictsTo m₂ ρ p₂ := by
  have hm := hmix.consistent hind hm₁.consistent hm₂.consistent
  have hcomposed := hmix.composed hind hm₁.consistent hm₂.consistent h₁ h₂
  have hpart := hmix.partOf hind
  obtain ⟨hagree₁, _, horder₁, hne₁, _⟩ := plan_settled h₁
  obtain ⟨hagree₂, _⟩ := plan_settled h₂
  have hprop : propagate o.strictPadding m = .ok m.propagation := propagate_eq_ok_iff.mpr
    ⟨fun hs => hmix.conflict?_eq_none hind hm (hagree₁ hs) (hagree₂ hs), rfl⟩
  have hne : m.loweringOrder ≠ [] := by
    intro hnil
    rw [horder₁, hpart.loweringOrder_eq hm, hnil] at hne₁
    exact hne₁ rfl
  obtain ⟨p, hplan, _, _, hrepeats, _⟩ := hcomposed.exists_plan name hreg hprop hne
  have hleft := hcomposed.restrictsTo (i := true) hpart hplan h₁ hrepeats
  have hright := hcomposed.restrictsTo (i := false) (hmix.symm.partOf hind.symm) hplan h₂ hrepeats
  exact ⟨p, hplan, ⟨_, hleft⟩, _, hright⟩

def rectifiedImage : List Node :=
  [{ id := "image", kind := .input, outputs := ["x"], outputShapes := [⟨[3, 4, 4], .channelRowColumn⟩] },
   { id := "relu", kind := .relu, inputs := ["x"], outputs := ["y"] }]

/-- A constant, and the tensor that it is. -/
def normalizedConstant : Model where
  nodes :=
    [{ id := "offset", kind := .constant, outputs := ["c"], weights := [("value", ⟨"ones", .unset⟩)] },
     { id := "softmax", kind := .softmax, inputs := ["c"], outputs := ["s"] }]
  tensors := [⟨"ones", [2], .channel, #[⟨1⟩, ⟨1⟩]⟩]

/-- The one around the other. -/
def imageAroundConstant : Model where
  nodes := rectifiedImage.take 1 ++ normalizedConstant.nodes ++ rectifiedImage.drop 1
  tensors := normalizedConstant.tensors

theorem plan_of_interleaving_imageAroundConstant : ∃ p p₁ p₂,
    plan standardOptions "net" imageAroundConstant = .ok p ∧
      plan standardOptions "net" ⟨rectifiedImage, []⟩ = .ok p₁ ∧
      plan standardOptions "net" normalizedConstant = .ok p₂ ∧ p₁.order.length = 2 ∧ p₂.order.length = 2 ∧
      (∃ ρ, p.RestrictsTo ⟨rectifiedImage, []⟩ ρ p₁) ∧ ∃ ρ, p.RestrictsTo normalizedConstant ρ p₂ := by
  have hreach₁ : (Model.mk rectifiedImage []).Reachable :=
    Model.reachable_of_consistent ⟨by decide, by decide, by decide, by decide⟩
  have hones : Model.empty.addTensor "ones" (.singles #[⟨1⟩, ⟨1⟩]) .channel [2] =
      .ok ⟨[], normalizedConstant.tensors⟩ := rfl
  have hreach₂ : normalizedConstant.Reachable :=
    Model.Reachable.add_nodes (.addTensor .empty hones) ⟨by decide, by decide, by decide, by decide⟩
  have hmix : imageAroundConstant.Interleaves ⟨rectifiedImage, []⟩ normalizedConstant :=
    ⟨.left (.right (.right (.left .nil))), fun id t => by simp [Model.tensor?, imageAroundConstant]⟩
  obtain ⟨p₁, h₁, horder₁⟩ : ∃ p, plan standardOptions "net" ⟨rectifiedImage, []⟩ = .ok p ∧
      p.order = rectifiedImage := exists_plan_of_order (by cbv) (List.cons_ne_nil _ _)
  obtain ⟨p₂, h₂, horder₂⟩ : ∃ p, plan standardOptions "net" normalizedConstant = .ok p ∧
      p.order = normalizedConstant.nodes := exists_plan_of_order (by cbv) (List.cons_ne_nil _ _)
  obtain ⟨p, hplan, hleft, hright⟩ := plan_of_interleaving standardOptions "net" imageAroundConstant _ _
    p₁ p₂ hreach₁ hreach₂ ⟨by decide, by decide⟩ hmix rfl h₁ h₂
  exact ⟨p, p₁, p₂, hplan, h₁, h₂, congrArg List.length horder₁, congrArg List.length horder₂, hleft, hright⟩

end NetLowering
