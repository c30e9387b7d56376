import Mathlib
import NetLowering.Proofs.Numbering
import NetLowering.Proofs.Propagation
import NetLowering.Proofs.Standard

/-! # Owners of values

A value resolves to a plan node by the model alone and what each node emitted: to the last plan node of
its producer, or, if the producer emitted nothing, to what the producer's first input resolves to. The
table of a finished plan says the same (`owner?_iff_resolves`), although it was overwritten by every
emission on the way. Since owners no longer change once their node is lowered, all readers of a value
read the same plan node, also where they read it under different names (`Plan.Resolved`). -/

namespace NetLowering

/-- The plan node that a value stands for. -/
inductive Resolves (m : Model) (t : Ownership) : String → PlanNode → Prop
  | emitted {x : String} {n : Node} {q : PlanNode} :
      m.producer? x = some n → t.last? n.id = some q → Resolves m t x q
  | elided {x y : String} {n : Node} {q : PlanNode} :
      m.producer? x = some n → t.last? n.id = none → n.inputs.head? = some y → Resolves m t y q →
        Resolves m t x q

theorem Resolves.unique {m : Model} {t : Ownership} {x : String} {q q' : PlanNode}
    (h : Resolves m t x q) (h' : Resolves m t x q') : q = q' := by
  induction h with
  | emitted hn hlast =>
      cases h' with
      | emitted hn' hlast' =>
          rw [hn] at hn'
          cases hn'
          exact Option.some.inj (hlast.symm.trans hlast')
      | elided hn' hnone =>
          rw [hn] at hn'
          cases hn'
          rw [hlast] at hnone
          cases hnone
  | elided hn hnone hy _ ih =>
      cases h' with
      | emitted hn' hlast' =>
          rw [hn] at hn'
          cases hn'
          rw [hlast'] at hnone
          cases hnone
      | elided hn' _ hy' hrest =>
          rw [hn] at hn'
          cases hn'
          rw [hy] at hy'
          cases hy'
          exact ih hrest

/-! ### Owners in a plan -/

section owners
variable {o : Options} {m : Model} {p : Plan} {paddings : Propagation} {start final : Run}

theorem Planned.owner_resolves (hm : m.Consistent) (hreg : o.registry = .standard)
    (hp : Planned o m p paddings start final) :
    ∀ n ∈ p.order, ∀ x ∈ n.outputs, ∃ q, p.table.owner? x = some q ∧ Resolves m p.table x q := by
  refine forall_mem_of_before fun pre n post hsplit hbefore => ?_
  intro x hx
  have hn : n ∈ p.order := by rw [hsplit]; simp
  have hproducer : m.producer? x = some n := hm.producer?_eq_some_iff.mpr ⟨hp.mem_nodes hn, hx⟩
  obtain ⟨before, after, hs⟩ := hp.stage hm hsplit
  obtain ⟨sent, owner, hl, hcases⟩ := lowerNode_standard hreg hs.lowered
  obtain ⟨hemitted, houtputs⟩ := hs.lowering hl
  refine ⟨owner, houtputs x hx, ?_⟩
  rcases hcases with hexpanded | ⟨rfl, helided⟩
  · refine .emitted hproducer ?_
    rw [Ownership.last?, hemitted, hexpanded.last]
  · -- the first input was produced before, so what it resolves to is known
    obtain ⟨y, hy, howner⟩ := helided.first
    obtain ⟨k, hk, hyk⟩ := (hs.owned y).mp ⟨owner, howner⟩
    obtain ⟨q, hq, hresolves⟩ := hbefore k hk y hyk
    rw [hs.kept y owner howner] at hq
    cases hq
    refine .elided hproducer ?_ hy hresolves
    rw [Ownership.last?, hemitted, List.getLast?_nil]

theorem Planned.owner?_iff_resolves (hm : m.Consistent) (hreg : o.registry = .standard)
    (hp : Planned o m p paddings start final) {n : Node} (hn : n ∈ p.order) {x : String}
    (hx : x ∈ n.outputs) (q : PlanNode) : p.table.owner? x = some q ↔ Resolves m p.table x q := by
  obtain ⟨owner, howner, hresolves⟩ := hp.owner_resolves hm hreg n hn x hx
  rw [howner]
  constructor
  · intro h; cases h; exact hresolves
  · intro h; rw [hresolves.unique h]

/-- Once its node is lowered, the owner of a value is the one it has in the plan. -/
theorem Planned.owner_kept (hm : m.Consistent) (hp : Planned o m p paddings start final)
    {pre post : List Node} {r : Run} (hsplit : p.order = pre ++ post)
    (h : pre.foldlM (Run.lowerNode o m paddings) start = .ok r) {n : Node} (hn : n ∈ pre) {x : String}
    (hx : x ∈ n.outputs) : r.table.owner? x = p.table.owner? x := by
  have hrun := hp.run
  rw [hsplit, List.foldlM_append, h] at hrun
  rw [hp.table, owner?_frame (fun k hk => (hp.apart hm hsplit hn hk).2 x hx) hrun]

theorem Planned.exists_of_owner (hp : Planned o m p paddings start final) {x : String} {q : PlanNode}
    (h : p.table.owner? x = some q) : ∃ n ∈ p.order, x ∈ n.outputs := by
  rw [hp.table] at h
  rcases (owned_iff hp.run x).mp ⟨q, h⟩ with ⟨q', hq'⟩ | hn
  · rw [hp.empty] at hq'
    cases hq'
  · exact hn

/-- The first plan node of a node reads the owners of its inputs, and each other the one before. -/
theorem Planned.emitted_reads (hm : m.Consistent) (hreg : o.registry = .standard)
    (hp : Planned o m p paddings start final) {n : Node} (hn : n ∈ p.order) :
    (∀ q ∈ (p.table.emitted n.id).head?,
      List.Forall₂ p.table.Holds n.inputsRead q.primitive.operands) ∧
    (p.table.emitted n.id).IsChain PlanNode.Feeds := by
  obtain ⟨pre, post, hsplit⟩ := List.append_of_mem hn
  obtain ⟨before, after, hs⟩ := hp.stage hm hsplit
  obtain ⟨sent, owner, hl, hcases⟩ := lowerNode_standard hreg hs.lowered
  rw [(hs.lowering hl).1]
  rcases hcases with hexpanded | ⟨rfl, _⟩
  · refine ⟨fun q hq => ?_, hexpanded.chain⟩
    refine (hexpanded.first q hq).imp fun x operand hx => ?_
    obtain ⟨q', hq', hsource⟩ := hx
    exact ⟨q', hs.kept x q' hq', hsource⟩
  · refine ⟨fun q hq => ?_, .nil⟩
    cases hq

end owners

/-! ### Resolved plans -/

/-- The owners of a plan are what its values resolve to, and what its plan nodes read. -/
structure Plan.Resolved (o : Options) (m : Model) (p : Plan) : Prop where
  /-- Plan nodes are told apart by their numbers. -/
  ids_nodup : (p.nodes.map PlanNode.id).Nodup
  /-- Every output of a scheduled node has an owner, and it is the plan node the value resolves to. -/
  owner : ∀ n ∈ p.order, ∀ x ∈ n.outputs, ∃ q ∈ p.nodes, p.table.owner? x = some q ∧
    ∀ q', Resolves m p.table x q' ↔ q' = q
  /-- The run that made the plan never changed an owner once the node of the value was lowered. -/
  kept : ∃ paddings start final, Planned o m p paddings start final ∧
    ∀ pre post r, p.order = pre ++ post → pre.foldlM (Run.lowerNode o m paddings) start = .ok r →
      ∀ n ∈ pre, ∀ x ∈ n.outputs, r.table.owner? x = p.table.owner? x
  /-- The first plan node of a node reads the owners of the inputs that the node reads. -/
  first : ∀ n ∈ p.order, ∀ q ∈ (p.table.emitted n.id).head?,
    List.Forall₂ p.table.Holds n.inputsRead q.primitive.operands
  /-- Each other plan node of a node reads the one before. -/
  chain : ∀ n ∈ p.order, (p.table.emitted n.id).IsChain PlanNode.Feeds
  /-- All nodes that read values which resolve to one plan node read that plan node. -/
  fanOut : ∀ n ∈ p.order, ∀ q ∈ (p.table.emitted n.id).head?, ∀ (i : Nat) (x : String),
    n.inputsRead[i]? = some x → ∀ owner, Resolves m p.table x owner →
      (q.primitive.operands[i]?).map Operand.source = some owner.id

theorem Planned.resolved {o : Options} {m : Model} {p : Plan} {paddings : Propagation}
    {start final : Run} (hm : m.Consistent) (hreg : o.registry = .standard)
    (hp : Planned o m p paddings start final) : p.Resolved o m := by
  have hordered := hp.ordered
  refine ⟨hordered.ids_nodup, fun n hn x hx => ?_, ?_, fun n hn => (hp.emitted_reads hm hreg hn).1,
    fun n hn => (hp.emitted_reads hm hreg hn).2, fun n hn q hq i x hi owner hres => ?_⟩
  · obtain ⟨q, hq, hres⟩ := hp.owner_resolves hm hreg n hn x hx
    refine ⟨q, hordered.owned x q hq, hq, fun q' => ?_⟩
    rw [← hp.owner?_iff_resolves hm hreg hn hx, hq, Option.some.injEq, eq_comm]
  · refine ⟨paddings, start, final, hp, fun pre post r hsplit h n hn x hx => ?_⟩
    exact hp.owner_kept hm hsplit h hn hx
  · have hfirst := (hp.emitted_reads hm hreg hn).1 q hq
    obtain ⟨hlt, rfl⟩ := List.getElem?_eq_some_iff.mp hi
    have hlt' : i < q.primitive.operands.length := hfirst.length_eq ▸ hlt
    obtain ⟨q', hq', hsource⟩ := hfirst.get hlt hlt'
    obtain ⟨k, hk, hx⟩ := hp.exists_of_owner hq'
    have hsame := (hp.owner?_iff_resolves hm hreg hk hx owner).mpr hres
    rw [hq'] at hsame
    cases hsame
    rw [List.getElem?_eq_getElem hlt', Option.map_some]
    exact congrArg some hsource

/-- With the standard registry every plan is resolved, and no node is left with nothing to stand for
it. -/
theorem standard_plan_resolved (o : Options) (name : String) (m : Model) (hm : m.Reachable)
    (hreg : o.registry = .standard) :
    (∀ p, plan o name m = .ok p → p.Resolved o m) ∧
      ∀ e, plan o name m = .error e → e.cause ≠ .nothingProduced := by
  constructor
  · intro p h
    obtain ⟨paddings, start, final, hp⟩ := plan_eq_ok h
    exact hp.resolved hm.consistent hreg
  · intro e h hcause
    rcases plan_eq_error h with herr | hnone | ⟨_, _, _, _, _, _, _, _, _, _, _, hn, rfl⟩
    · obtain ⟨first, other, hambiguous⟩ := propagate_eq_error herr
      rw [hcause] at hambiguous
      cases hambiguous
    · rw [hcause] at hnone
      cases hnone
    · exact lowerNode_standard_error hreg hn hcause

/-! ### A value with two names -/

/-- An input that is read under its own name and under another. -/
def renamedImage : List Node :=
  [{ id := "image", kind := .input, outputs := ["x"], outputShapes := [⟨[3, 4, 4], .channelRowColumn⟩] },
   { id := "alias", kind := .passthrough, inputs := ["x"], outputs := ["y"] },
   { id := "relu", kind := .relu, inputs := ["x"], outputs := ["r"] },
   { id := "sum", kind := .plus, inputs := ["y", "r"], outputs := ["out"] }]

/-- The standard registry, in the mode where the first padding wins. -/
def standardOptions : Options := ⟨.standard, false, ⟨0⟩, ⟨0⟩⟩

theorem standard_plan_renamedImage : ∃ p, plan standardOptions "net" ⟨renamedImage, []⟩ = .ok p ∧
    p.order = renamedImage ∧ p.Resolved standardOptions ⟨renamedImage, []⟩ := by
  have hreach : (Model.mk renamedImage []).Reachable :=
    Model.reachable_of_consistent ⟨by decide, by decide, by decide, by decide⟩
  obtain ⟨p, hplan, horder⟩ : ∃ p, plan standardOptions "net" ⟨renamedImage, []⟩ = .ok p ∧
      p.order = renamedImage := exists_plan_of_order (by cbv) (List.cons_ne_nil _ _)
  exact ⟨p, hplan, horder, (standard_plan_resolved standardOptions "net" _ hreach rfl).1 p hplan⟩

end NetLowering
