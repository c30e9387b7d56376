import Mathlib
import NetLowering.Proofs.DeadInputs
import NetLowering.Proofs.Replay
import NetLowering.Proofs.Resolution

/-! # Outputs of the network

A plan declares an output for each of its terminal nodes, those of whose outputs no scheduled node reads any. In
a schedule a node is read by nodes after it only (`ReadForward`). So the last node is terminal, and from every node
a chain of readers leads to a terminal one (`ReadForward.exists_terminal`). All values of scheduled nodes have an
owner, also where their node was left to the owner of its input, so no terminal node goes without its output
(`Plan.DeclaresTerminals`). -/

namespace NetLowering

/-! ### Readers in an order -/

instance : DecidableRel Node.ReadBy := fun n k => inferInstanceAs (Decidable (∃ x ∈ n.outputs, x ∈ k.inputs))

/-- No node of the order reads an output of the node. -/
def Node.Terminal (order : List Node) (n : Node) : Prop := ∀ k ∈ order, ¬ n.ReadBy k

instance (order : List Node) : DecidablePred (Node.Terminal order) := fun n =>
  inferInstanceAs (Decidable (∀ k ∈ order, ¬ n.ReadBy k))

/-- A chain of nodes of the order leads from the first node to the second, each of them read by the next. -/
def Leads (order : List Node) : Node → Node → Prop := Relation.ReflTransGen fun a b => b ∈ order ∧ a.ReadBy b

/-- A node reads neither its own outputs nor those of nodes after it. -/
def ReadForward (order : List Node) : Prop :=
  ∀ pre n post, order = pre ++ n :: post → ∀ k ∈ n :: post, ¬ k.ReadBy n

theorem readForward_order {m : Model} (hm : m.Consistent) (excluded : String → Bool) :
    ReadForward (scheduleWithout m excluded).order := by
  rintro pre n post heq k hk ⟨x, hxk, hxn⟩
  have hkorder : k ∈ (scheduleWithout m excluded).order := by
    rw [heq]
    exact List.mem_append_right _ hk
  have hbefore := mem_before_of_mem_outputs hm heq hxn hkorder hxk
  have hids := order_ids_nodup hm excluded
  rw [heq, List.map_append, List.nodup_append] at hids
  exact hids.2.2 _ (List.mem_map_of_mem hbefore) _ (List.mem_map_of_mem hk) rfl

theorem ReadForward.tail {n : Node} {rest : List Node} (h : ReadForward (n :: rest)) : ReadForward rest := by
  intro pre k post heq
  exact h (n :: pre) k post (by rw [heq]; rfl)

/-- Readers come later, and the order ends: so they lead to a node that nobody reads. -/
theorem ReadForward.exists_terminal {order : List Node} (h : ReadForward order) :
    ∀ n ∈ order, ∃ t ∈ order, t.Terminal order ∧ Leads order n t := by
  induction order with
  | nil => exact List.forall_mem_nil _
  | cons first rest ih =>
      have hfirst := h [] first rest rfl
      -- what is terminal in the rest is not read by the first node either
      have hrest : ∀ n ∈ rest, ∃ t ∈ first :: rest, t.Terminal (first :: rest) ∧ Leads (first :: rest) n t := by
        intro n hn
        obtain ⟨t, ht, hterminal, hleads⟩ := ih h.tail n hn
        have hmem := List.mem_cons_of_mem first ht
        refine ⟨t, hmem, List.forall_mem_cons.mpr ⟨hfirst t hmem, hterminal⟩, ?_⟩
        exact Relation.ReflTransGen.mono (fun _ _ hab => ⟨List.mem_cons_of_mem _ hab.1, hab.2⟩) _ _ hleads
      refine List.forall_mem_cons.mpr ⟨?_, hrest⟩
      by_cases hterminal : first.Terminal (first :: rest)
      · exact ⟨first, List.mem_cons_self, hterminal, .refl⟩
      · obtain ⟨k, hk, hread⟩ : ∃ k ∈ first :: rest, first.ReadBy k := by
          unfold Node.Terminal at hterminal
          push Not at hterminal
          exact hterminal
        rcases List.mem_cons.mp hk with rfl | hlater
        · exact absurd hread (hfirst k List.mem_cons_self)
        · obtain ⟨t, ht, hterminal, hleads⟩ := hrest k hlater
          exact ⟨t, ht, hterminal, .head ⟨hk, hread⟩ hleads⟩

theorem ReadForward.terminal_last {order : List Node} {n : Node} (h : ReadForward order)
    (hlast : order.getLast? = some n) : n.Terminal order := by
  intro k hk
  obtain ⟨pre, post, heq⟩ := List.append_of_mem hk
  refine h pre k post heq n ?_
  rw [heq, List.getLast?_append_cons] at hlast
  exact List.mem_of_getLast? hlast

/-! ### The outputs of a plan -/

theorem Plan.isTerminal_iff {order : List Node} {n : Node} :
    Plan.isTerminal order n = true ↔ n.Terminal order := by
  simp only [Plan.isTerminal, Node.Terminal, Node.ReadBy, List.all_eq_true, List.contains_eq_mem,
    Bool.not_eq_true', decide_eq_false_iff_not, List.mem_flatMap, not_exists, not_and]
  exact ⟨fun h k hk x hx => h x hx k hk, fun h x hx k hk => h k hk x hx⟩

theorem forall₂_filterMap_self {α β : Type} {f : α → Option β} {R : α → β → Prop} {xs : List α}
    (h : ∀ a ∈ xs, ∀ b, f a = some b → R a b) :
    List.Forall₂ R (xs.filter fun a => (f a).isSome) (xs.filterMap f) := by
  induction xs with
  | nil => exact .nil
  | cons a rest ih =>
      have hrest := ih fun b hb => h b (List.mem_cons_of_mem _ hb)
      rw [List.filter_cons, List.filterMap_cons]
      cases hf : f a with
      | none => exact hrest
      | some b => exact .cons (h a List.mem_cons_self b hf) hrest

theorem Ownership.firstOutput?_eq_some_iff {t : Ownership} {n : Node} {output : PlanOutput} :
    t.firstOutput? n = some output ↔
      n.outputs.head? = some output.name ∧ t.owner? output.name = some output.node := by
  unfold Ownership.firstOutput? Node.firstOutput?
  constructor
  · intro h
    obtain ⟨x, hx, h⟩ := Option.bind_eq_some_iff.mp h
    obtain ⟨q, hq, rfl⟩ := Option.map_eq_some_iff.mp h
    exact ⟨hx, hq⟩
  · rintro ⟨hx, hq⟩
    rw [hx, Option.bind_some, hq]
    rfl

/-- The output stands for the node: it is named by the first of its outputs, and is held by the plan node to which
that value resolves. -/
structure PlanOutput.StandsFor (m : Model) (p : Plan) (n : Node) (output : PlanOutput) : Prop where
  name : n.outputs.head? = some output.name
  owner : p.table.owner? output.name = some output.node
  resolves : Resolves m p.table output.name output.node

/-- The outputs of a plan are those of its terminal nodes, and all its nodes lead there. -/
structure Plan.DeclaresTerminals (m : Model) (p : Plan) : Prop where
  /-- There is one output for each terminal node that has any, in the order of the nodes. -/
  entries : List.Forall₂ (PlanOutput.StandsFor m p)
    (p.order.filter fun n => n.outputs ≠ [] ∧ n.Terminal p.order) p.outputs
  names_nodup : (p.outputs.map PlanOutput.name).Nodup
  last : ∃ n, p.order.getLast? = some n ∧ n.Terminal p.order
  leads : ∀ n ∈ p.order, ∃ t ∈ p.order, t.Terminal p.order ∧ Leads p.order n t
  /-- If all nodes have outputs, each of them feeds one of the network. -/
  covers : (∀ n ∈ p.order, n.outputs ≠ []) → p.outputs ≠ [] ∧
    ∀ n ∈ p.order, ∃ t ∈ p.order, Leads p.order n t ∧ ∃ output ∈ p.outputs, output.StandsFor m p t

section plans
variable {o : Options} {m : Model} {p : Plan} {paddings : Propagation} {start final : Run}

theorem Planned.firstOutput?_isSome (hm : m.Consistent) (hreg : o.registry = .standard)
    (hp : Planned o m p paddings start final) {n : Node} (hn : n ∈ p.order) :
    (p.table.firstOutput? n).isSome = true ↔ n.outputs ≠ [] := by
  rw [Option.isSome_iff_exists]
  constructor
  · rintro ⟨output, houtput⟩ hnil
    have hname := (Ownership.firstOutput?_eq_some_iff.mp houtput).1
    rw [hnil] at hname
    cases hname
  · intro hne
    obtain ⟨q, hq, _⟩ := hp.owner_resolves hm hreg n hn _ (List.head_mem hne)
    exact ⟨⟨n.outputs.head hne, q⟩, Ownership.firstOutput?_eq_some_iff.mpr ⟨List.head?_eq_some_head hne, hq⟩⟩

theorem Planned.outputs_entries (hm : m.Consistent) (hreg : o.registry = .standard)
    (hp : Planned o m p paddings start final) (houtputs : p.outputs = Plan.outputsOf p.order p.table) :
    List.Forall₂ (PlanOutput.StandsFor m p) (p.order.filter fun n => n.outputs ≠ [] ∧ n.Terminal p.order)
      p.outputs := by
  have hstands : ∀ n ∈ p.order.filter (Plan.isTerminal p.order), ∀ output,
      p.table.firstOutput? n = some output → output.StandsFor m p n := by
    intro n hn output houtput
    have hmem := List.mem_of_mem_filter hn
    obtain ⟨hname, howner⟩ := Ownership.firstOutput?_eq_some_iff.mp houtput
    refine ⟨hname, howner, ?_⟩
    exact (hp.owner?_iff_resolves hm hreg hmem (List.mem_of_mem_head? hname) _).mp howner
  have hentries := forall₂_filterMap_self hstands
  rw [← outputsOf_eq_filterMap, ← houtputs, List.filter_filter] at hentries
  convert hentries using 1
  refine List.filter_congr fun n hn => ?_
  rw [Bool.eq_iff_iff, decide_eq_true_eq, Bool.and_eq_true, hp.firstOutput?_isSome hm hreg hn,
    Plan.isTerminal_iff]

/-- No two scheduled nodes share an output, so no two outputs of the plan share a name. -/
theorem Planned.output_names_nodup (hm : m.Consistent) (hp : Planned o m p paddings start final)
    (houtputs : p.outputs = Plan.outputsOf p.order p.table) : (p.outputs.map PlanOutput.name).Nodup := by
  have hnodup : p.order.Nodup := by
    rw [hp.order]
    exact (order_ids_nodup hm _).of_map
  have hapart : p.order.Pairwise fun a b => ∀ x ∈ a.outputs, x ∉ b.outputs := by
    refine hnodup.pairwise_of_forall_ne fun a ha b hb hne x hxa hxb => hne ?_
    exact hm.eq_of_mem_outputs (hp.mem_nodes ha) (hp.mem_nodes hb) hxa hxb
  rw [houtputs, outputsOf_eq_filterMap, List.Nodup, List.pairwise_map, List.pairwise_filterMap]
  refine (hapart.filter _).imp fun {a b} hdisjoint output ha output' hb hsame => ?_
  have hxa := List.mem_of_mem_head? (Ownership.firstOutput?_eq_some_iff.mp ha).1
  have hxb := List.mem_of_mem_head? (Ownership.firstOutput?_eq_some_iff.mp hb).1
  exact hdisjoint _ hxa (hsame ▸ hxb)

end plans

/-- With the standard registry a plan declares its terminal nodes, each by its first output and the owner of that,
and every scheduled node leads to one of them. -/
theorem plan_declares_terminals (o : Options) (name : String) (m : Model) (p : Plan) (hm : m.Reachable)
    (hreg : o.registry = .standard) (h : plan o name m = .ok p) : p.DeclaresTerminals m := by
  obtain ⟨paddings, start, final, hp, hne, _, houtputs⟩ := plan_parts h
  have hcons := hm.consistent
  have hforward : ReadForward p.order := by
    rw [hp.order]
    exact readForward_order hcons _
  have hentries := hp.outputs_entries hcons hreg houtputs
  have hlast : p.order.getLast? = some (p.order.getLast hne) := List.getLast?_eq_some_getLast hne
  refine ⟨hentries, hp.output_names_nodup hcons houtputs, ⟨_, hlast, hforward.terminal_last hlast⟩,
    hforward.exists_terminal, fun hall => ?_⟩
  -- a terminal node that has outputs is declared
  have hcovers : ∀ n ∈ p.order, ∃ t ∈ p.order, Leads p.order n t ∧
      ∃ output ∈ p.outputs, output.StandsFor m p t := by
    intro n hn
    obtain ⟨t, ht, hterminal, hleads⟩ := hforward.exists_terminal n hn
    refine ⟨t, ht, hleads, exists_mem_of_forall₂ hentries t ?_⟩
    exact List.mem_filter.mpr ⟨ht, decide_eq_true ⟨hall t ht, hterminal⟩⟩
  obtain ⟨_, _, _, output, houtput, _⟩ := hcovers _ (List.getLast_mem hne)
  exact ⟨List.ne_nil_of_mem houtput, hcovers⟩

/-- An image whose rectifier has two outputs. A passthrough renames one of them, and the hyperbolic tangent of the
other is read by nothing but a node that is never run. -/
def forkedOutputs : List Node :=
  [{ id := "lost", kind := .relu, inputs := ["z", "missing"], outputs := ["w"] },
   { id := "image", kind := .input, outputs := ["x"], outputShapes := [⟨[3, 4, 4], .channelRowColumn⟩] },
   { id := "relu", kind := .relu, inputs := ["x"], outputs := ["a", "b"] },
   { id := "rename", kind := .passthrough, inputs := ["b"], outputs := ["y"] },
   { id := "tanh", kind := .tanh, inputs := ["a"], outputs := ["z"] }]

theorem plan_declares_terminals_forkedOutputs :
    ∃ p, plan standardOptions "net" ⟨forkedOutputs, []⟩ = .ok p ∧
      (p.order.map Node.id, p.outputs.map fun output => (output.name, output.node.name)) =
        (["image", "relu", "rename", "tanh"], [("y", "Activation(2)"), ("z", "Activation(3)")]) ∧
      p.DeclaresTerminals ⟨forkedOutputs, []⟩ := by
  have hreach : (Model.mk forkedOutputs []).Reachable :=
    Model.reachable_of_consistent ⟨by decide, by decide, by decide, by decide⟩
  obtain ⟨p, hplan, hview⟩ : ∃ p, plan standardOptions "net" ⟨forkedOutputs, []⟩ = .ok p ∧
      (p.order.map Node.id, p.outputs.map fun output => (output.name, output.node.name)) =
        (["image", "relu", "rename", "tanh"], [("y", "Activation(2)"), ("z", "Activation(3)")]) :=
    exists_plan_of_view (by cbv)
  exact ⟨p, hplan, hview, plan_declares_terminals standardOptions "net" _ p hreach rfl hplan⟩

end NetLowering
