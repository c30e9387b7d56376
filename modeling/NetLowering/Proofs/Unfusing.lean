import Mathlib
import NetLowering.Number.Interchange
import NetLowering.Proofs.Fusion
import NetLowering.Proofs.Resolution

/-! # Fused nodes taken apart

A node that carries parts can be replaced, where it stands, by a chain of nodes: itself without the parts, and
then a node for each of them (`Model.Unfuses`). The plan stays as it is, but for the names of what its nodes
come from (`plan_of_unfused`). The parts are taken off one at a time, beginning with the last. Each time the
node is split in two (`Node.Fuses.exists_plan`), and the rest of the chain takes the first half apart in its
turn (`Model.Unfuses.rest`). -/

namespace NetLowering

/-! ### One part -/

theorem OpKind.proper_of_parts {kind : OpKind} (h : kind.parts ≠ []) :
    kind ≠ .skip ∧ kind ≠ .input ∧ kind.isTransparent = false := by
  cases kind with
  | convolution | binaryConvolution | fullyConnected | batchNormalization => decide
  | _ => exact absurd rfl h

theorem Part.kind_proper (part : Part) :
    part.kind ≠ .skip ∧ part.kind ≠ .input ∧ part.kind.isTransparent = false := by
  cases part <;> decide

theorem Model.contribution_of_opaque {n : Node} (m : Model) (hskip : n.kind ≠ .skip)
    (htrans : n.kind.isTransparent = false) : m.contribution n = some [n.inputPadding] := by
  rw [contribution, if_neg hskip, htrans]
  rfl

namespace Node.Fuses

variable {m m' : Model} {pre post : List Node} {n b f : Node} {part : Part} {w : String}
variable (h : n.Fuses part b f w)
include h

theorem splits (hnodes : m.nodes = pre ++ n :: post) (hnodes' : m'.nodes = pre ++ b :: f :: post)
    (htensors : m'.tensors = m.tensors) (hfresh : ∀ k ∈ m.nodes, w ∉ k.inputs ∧ w ∉ k.outputs) :
    m.Splits m' pre n b f post w := by
  have hn : n ∈ m.nodes := by rw [hnodes]; simp
  obtain ⟨hskip, hinput, _⟩ := OpKind.proper_of_parts h.parts_ne_nil
  obtain ⟨hskip', hinput', _⟩ := part.kind_proper
  refine ⟨hnodes, hnodes', htensors, h.link, h.outputs, hfresh, ?_, ?_, fun z hz => ?_, ?_, ?_⟩
  · rw [h.trims.inputs]
    exact (hfresh n hn).1
  · rw [h.reads]
    exact List.count_singleton_self
  · rw [h.trims.inputs, h.reads, List.count_singleton, if_neg (by simpa using hz.symm), Nat.add_zero]
  · rw [h.trims.kind, h.supplies.kind]
    exact ⟨hskip, hinput, hskip'⟩
  · rw [h.supplies.kind]
    exact iff_of_false hinput' hinput

theorem faithful : Model.Faithful m m' n b f w := by
  obtain ⟨hskip, _, htrans⟩ := OpKind.proper_of_parts h.parts_ne_nil
  rintro _ r (rfl | rfl) ⟨z, hz, hne⟩
  · rw [m.contribution_of_opaque hskip htrans, m'.contribution_of_opaque (h.trims.kind ▸ hskip)
      (h.trims.kind ▸ htrans), h.trims.inputPadding]
  · rw [h.reads] at hz
    exact absurd (List.mem_singleton.mp hz) hne

theorem outputPadding_link (hsplits : m.Splits m' pre n b f post w) (hm' : m'.Consistent) :
    m'.propagation.outputPadding b.id = .absent := by
  obtain ⟨hskip, _, htrans⟩ := part.kind_proper
  have hreq := hsplits.requirements_u hm'
  rw [m'.contribution_of_opaque (h.supplies.kind ▸ hskip) (h.supplies.kind ▸ htrans),
    h.supplies.inputPadding] at hreq
  exact Model.outputPadding_propagation hm' hsplits.mem_u hreq

/-- A node that carries a part can be split in two. -/
theorem exists_plan {o : Options} {name : String} {p : Plan} (hsplits : m.Splits m' pre n b f post w)
    (hm : m.Consistent) (hm' : m'.Consistent) (hreg : o.registry = .standard)
    (hplan : plan o name m = .ok p) (hn : n ∈ p.order) :
    ∃ p', plan o name m' = .ok p' ∧ p.SplitInto .unnamed p' n b f := by
  refine hsplits.exists_plan hm hm' h.faithful hplan hn ?_
  intro before middle after start start' final hapart hempty hp
  obtain rfl : middle = [] := hapart.direct fun z hz => h.trims.inputs ▸ hz
  have hn' : n ∈ (scheduleWithout m m.propagation.isCyclic).order := hp.order ▸ hn
  have hothers := hsplits.bystanders hm hm' h.faithful hn' hapart.order
  have hrun := hp.run
  rw [hp.order, hapart.order] at hrun
  obtain ⟨r₁, r₂, hbefore, hlower, hafter⟩ := foldlM_append_cons_eq_ok hrun
  have hstart : Alongside .unnamed w start.table start'.table := by
    rw [hp.empty, hempty]
    exact .empty _ _
  obtain ⟨r₁', hbefore', h₁⟩ := hstart.foldlM Correspondence.unnamed_steady hreg hsplits.tensor?_eq
    (fun k hk => hothers k (List.mem_append_left _ hk)) hbefore
  have hpadding : m'.propagation.outputPadding f.id = m.propagation.outputPadding n.id :=
    hsplits.outputPadding_eq hm hm' h.faithful (Model.Splits.requirements_ne_none_of_scheduled hm hn')
      .last (mem_of_mem_order hn').2.2
  obtain ⟨r₂', r₃', hlower_b, hlower_f, h₃⟩ := h.lower_apart hreg hsplits.tensor?_eq h₁
    (fun x hx => not_mem_outputs_of_mem_inputs hm hn' hx) (hsplits.fresh n hsplits.mem_c).1
    (h.outputPadding_link hsplits hm') hpadding hlower
  obtain ⟨final', hafter', hfinal⟩ := h₃.foldlM Correspondence.unnamed_steady hreg hsplits.tensor?_eq
    (fun k hk => hothers k (List.mem_append_right _ hk)) hafter
  refine ⟨final', foldlM_append_cons_of_ok hbefore' hlower_b ?_, hfinal⟩
  rw [List.nil_append, List.foldlM_cons, hlower_f]
  exact hafter'

end Node.Fuses

/-! ### Nodes without their parts -/

theorem lookup_filter {α : Type} (keep : String → Bool) (entries : List (String × α)) (name : String) :
    (entries.filter fun entry => keep entry.1).lookup name =
      if keep name then entries.lookup name else none := by
  induction entries with
  | nil => simp
  | cons entry rest ih =>
      obtain ⟨key, value⟩ := entry
      rw [List.filter_cons, List.lookup_cons]
      by_cases heq : name = key
      · subst heq
        cases hkeep : keep name <;> simp [hkeep, ih]
      · rw [beq_false_of_ne heq]
        split
        · rw [List.lookup_cons, beq_false_of_ne heq]
          exact ih
        · exact ih

namespace Node

/-- The node without a part, under an id of its own and with one output. -/
def trimmed (n : Node) (part : Part) (id w : String) : Node :=
  { n with
    id
    outputs := [w]
    weights := n.weights.filter fun entry => !part.converter.weights.contains entry.1
    attributes := n.attributes.filter fun entry => !part.converter.attributes.contains entry.1 }

theorem trims_trimmed (n : Node) (part : Part) (id w : String) : n.Trims [part] (n.trimmed part id w) := by
  refine ⟨rfl, rfl, rfl, rfl, fun role => ?_, fun name => ?_⟩
  · show (n.weights.filter _).lookup role = _
    rw [lookup_filter fun role => !part.converter.weights.contains role]
    by_cases hrole : role ∈ part.converter.weights
    · simp [hrole]
    · simp [hrole, weight?]
  · show (n.attributes.filter _).lookup name = _
    rw [lookup_filter fun name => !part.converter.attributes.contains name]
    by_cases hname : name ∈ part.converter.attributes
    · simp [hname]
    · simp [hname, attribute?]

variable {n b f : Node} {part other : Part} {init : List Part}

/-- The other parts are taken off the node that lacks one. -/
theorem Trims.concat_iff {base : Node} (h : n.Trims [part] b) :
    n.Trims (init ++ [part]) base ↔ b.Trims init base := by
  have hweights (role : String) :
      (if ∃ other ∈ init ++ [part], role ∈ other.converter.weights then none else n.weight? role) =
        if ∃ other ∈ init, role ∈ other.converter.weights then none else b.weight? role := by
    rw [h.weights]
    by_cases hrole : role ∈ part.converter.weights <;> simp [hrole, or_and_right, exists_or]
  have hattributes (name : String) :
      (if ∃ other ∈ init ++ [part], name ∈ other.converter.attributes then none else n.attribute? name) =
        if ∃ other ∈ init, name ∈ other.converter.attributes then none else b.attribute? name := by
    rw [h.attributes]
    by_cases hname : name ∈ part.converter.attributes <;> simp [hname, or_and_right, exists_or]
  constructor
  · intro hbase
    exact ⟨hbase.kind.trans h.kind.symm, hbase.inputs.trans h.inputs.symm,
      hbase.inputPadding.trans h.inputPadding.symm, hbase.outputShapes.trans h.outputShapes.symm,
      fun role => (hbase.weights role).trans (hweights role),
      fun name => (hbase.attributes name).trans (hattributes name)⟩
  · intro hbase
    exact ⟨hbase.kind.trans h.kind, hbase.inputs.trans h.inputs, hbase.inputPadding.trans h.inputPadding,
      hbase.outputShapes.trans h.outputShapes,
      fun role => (hbase.weights role).trans (hweights role).symm,
      fun name => (hbase.attributes name).trans (hattributes name).symm⟩

theorem Supplies.rest (hf : n.Supplies other f) (h : n.Trims [part] b) (hne : other ≠ part) :
    b.Supplies other f := by
  have hignores := part_ignores hne
  refine ⟨hf.kind, hf.inputPadding, hf.outputShapes.trans h.outputShapes.symm, fun role hrole => ?_,
    fun name hname => ?_⟩
  · rw [hf.weights role hrole, h.weight?_eq (hignores.weights role (List.mem_append_right _ hrole))]
  · rw [hf.attributes name hname,
      h.attribute?_eq (hignores.attributes name (List.mem_append_right _ hname))]

end Node

/-! ### Chains -/

/-- The second model is the first with the node `n` taken apart: `base` is the node without the parts that it
carries, the nodes after it supply these one by one, and each of them reads the one before off a new link.
The last has the outputs. -/
structure Model.Unfuses (m m' : Model) (pre : List Node) (n base : Node) (followers post : List Node)
    (links : List String) : Prop where
  nodes : m.nodes = pre ++ n :: post
  nodes' : m'.nodes = pre ++ base :: (followers ++ post)
  tensors : m'.tensors = m.tensors
  carries : n.partsCarried ≠ []
  trims : n.Trims n.partsCarried base
  supplies : List.Forall₂ n.Supplies n.partsCarried followers
  reads : followers.map Node.inputs = links.map fun w => [w]
  writes : (base :: followers).map Node.outputs = (links.map fun w => [w]) ++ [n.outputs]
  distinct : links.Nodup
  fresh : ∀ w ∈ links, ∀ k ∈ m.nodes, w ∉ k.inputs ∧ w ∉ k.outputs

/-- A chain for the node that ends in `f`, cut before it: `f` supplies the last part, off the last link. -/
structure Node.EndsIn (n base : Node) (front : List Node) (f : Node) (init : List Part) (part : Part)
    (ws : List String) (w : String) : Prop where
  parts : n.partsCarried = init ++ [part]
  supplies : List.Forall₂ n.Supplies init front
  supplies_last : n.Supplies part f
  reads : front.map Node.inputs = ws.map fun w => [w]
  reads_last : f.inputs = [w]
  writes : (base :: front).map Node.outputs = (ws.map fun w => [w]) ++ [[w]]
  outputs : f.outputs = n.outputs

namespace Model.Unfuses

variable {m m' : Model} {pre front post : List Node} {n base f : Node} {ws : List String} {w : String}
variable {init : List Part} {part : Part}

theorem exists_last {links : List String} (h : m.Unfuses m' pre n base (front ++ [f]) post links) :
    ∃ init part ws w, links = ws ++ [w] ∧ n.EndsIn base front f init part ws w := by
  obtain ⟨init, part, hparts⟩ := (List.eq_nil_or_concat n.partsCarried).resolve_left h.carries
  rw [List.concat_eq_append] at hparts
  have hsupplies := h.supplies
  rw [hparts] at hsupplies
  obtain ⟨_, _, hsplit, hfront, hf⟩ := forall₂_concat hsupplies
  obtain ⟨rfl, hsame⟩ := List.append_inj' hsplit rfl
  cases hsame
  have hreads := h.reads.symm
  rw [List.map_append, List.map_singleton, List.map_eq_append_iff] at hreads
  obtain ⟨ws, last, rfl, hws, hlast⟩ := hreads
  obtain ⟨w, rfl, hw⟩ := List.map_eq_singleton_iff.mp hlast
  have hwrites := h.writes
  rw [← List.cons_append, List.map_append, List.map_append, List.map_singleton, List.map_singleton] at hwrites
  obtain ⟨hfirst, houtputs⟩ := List.append_inj' hwrites rfl
  exact ⟨init, part, ws, w, rfl, hparts, hfront, hf, hws.symm, hw.symm, hfirst,
    (List.cons.inj houtputs).1⟩

end Model.Unfuses

theorem Node.EndsIn.fuses {n base f b : Node} {front : List Node} {init : List Part} {part : Part}
    {ws : List String} {w : String} (h : n.EndsIn base front f init part ws w) (htrims : n.Trims [part] b)
    (hlink : b.outputs = [w]) : n.Fuses part b f w :=
  ⟨by rw [h.parts, List.getLast?_concat], htrims, hlink, h.supplies_last, h.reads_last, h.outputs⟩

/-- The model with one part of a node taken off. -/
def Model.takeOff (m : Model) (pre : List Node) (n f : Node) (post : List Node) (part : Part)
    (id w : String) : Model := ⟨pre ++ n.trimmed part id w :: f :: post, m.tensors⟩

namespace Model.Unfuses

variable {m m' : Model} {pre front post : List Node} {n base f : Node} {ws : List String} {w : String}
variable {init : List Part} {part : Part}
variable (h : m.Unfuses m' pre n base (front ++ [f]) post (ws ++ [w]))
variable (hlast : n.EndsIn base front f init part ws w)
include h hlast

/-- Once the last part is taken off, the rest of the chain takes off the others. -/
theorem rest (hinit : init ≠ []) : (m.takeOff pre n f post part base.id w).Unfuses m' pre
    (n.trimmed part base.id w) base front (f :: post) ws := by
  have htrims := n.trims_trimmed part base.id w
  have hparts : (n.trimmed part base.id w).partsCarried = init := htrims.partsCarried_eq hlast.parts
  have hne (other : Part) (hother : other ∈ init) : other ≠ part :=
    Node.ne_of_partsCarried hlast.parts hother
  have hdistinct := List.nodup_append.mp h.distinct
  refine ⟨rfl, ?_, h.tensors, ?_, ?_, ?_, hlast.reads, hlast.writes, hdistinct.1, ?_⟩
  · rw [h.nodes', List.append_assoc]
    rfl
  · rw [hparts]
    exact hinit
  · rw [hparts]
    exact htrims.concat_iff.mp (hlast.parts ▸ h.trims)
  · rw [hparts]
    have hall := (List.forall₂_and_left _ _).mpr ⟨hne, hlast.supplies⟩
    exact hall.imp fun other f' ⟨hother, hf'⟩ => hf'.rest htrims hother
  · intro w' hw' k hk
    have hfresh := h.fresh w' (List.mem_append_left _ hw')
    have hlink : w' ≠ w := hdistinct.2.2 w' hw' w (List.mem_singleton_self w)
    have hn := hfresh n (by rw [h.nodes]; simp)
    simp only [takeOff, List.mem_append, List.mem_cons] at hk
    rcases hk with hpre | rfl | rfl | hpost
    · exact hfresh k (by rw [h.nodes]; exact List.mem_append_left _ hpre)
    · exact ⟨hn.1, by simpa [Node.trimmed] using hlink⟩
    · rw [hlast.reads_last, hlast.outputs]
      exact ⟨by simpa using hlink, hn.2⟩
    · exact hfresh k (by rw [h.nodes]; exact List.mem_append_right _ (List.mem_cons_of_mem _ hpost))

theorem consistent_takeOff (hm : m.Consistent) (hm' : m'.Consistent) :
    (m.takeOff pre n f post part base.id w).Consistent := by
  have hfresh := h.fresh w (by simp)
  have hnamed := hm'.named
  have hids := hm'.ids_nodup
  have hdisjoint := hm.outputs_disjoint
  have hnonneg := hm.padding_nonneg
  rw [h.nodes'] at hnamed hids
  rw [h.nodes] at hfresh hdisjoint hnonneg
  refine ⟨fun k hk => ?_, hids.sublist ?_, ?_, fun k hk => ?_⟩
  · simp only [takeOff, List.mem_append, List.mem_cons] at hk
    rcases hk with hpre | rfl | rfl | hpost
    · exact hnamed k (by simp [hpre])
    · exact hnamed base (by simp)
    · exact hnamed k (by simp)
    · exact hnamed k (by simp [hpost])
  · simp only [takeOff, List.map_append, List.map_cons, List.append_assoc]
    refine (List.Sublist.refl _).append (.cons_cons _ ?_)
    exact List.sublist_append_right _ _
  · -- the last node has the outputs of the whole, and the link is new
    have hlink (k : Node) (hk : k ∈ pre ++ n :: post) : ∀ x ∈ [w], x ∉ k.outputs := by
      intro x hx
      rw [List.mem_singleton.mp hx]
      exact (hfresh k hk).2
    simp only [takeOff, List.pairwise_append, List.pairwise_cons, List.mem_cons, forall_eq_or_imp,
      hlast.outputs] at hdisjoint ⊢
    obtain ⟨hpre, ⟨hn, hpost⟩, hcross⟩ := hdisjoint
    refine ⟨hpre, ⟨⟨hlink n (by simp), fun k hk => hlink k (by simp [hk])⟩, hn, hpost⟩, fun k hk => ?_⟩
    refine ⟨fun x hx hw => hlink k (by simp [hk]) x hw hx, hcross k hk⟩
  · simp only [takeOff, List.mem_append, List.mem_cons] at hk
    rcases hk with hpre | rfl | rfl | hpost
    · exact hnonneg k (by simp [hpre])
    · exact hnonneg n (by simp)
    · rw [hlast.supplies_last.inputPadding]
      decide
    · exact hnonneg k (by simp [hpost])

end Model.Unfuses

/-! ### Plans -/

/-- The output without the names of what its plan node comes from. -/
def PlanOutput.unnamed (out : PlanOutput) : PlanOutput := ⟨out.name, out.node.unnamed⟩

/-- The plans are the same but for their orders and the names of what plan nodes come from. -/
structure Plan.SameUnnamed (p p' : Plan) : Prop where
  nodes : p'.nodes.map PlanNode.unnamed = p.nodes.map PlanNode.unnamed
  outputs : p'.outputs.map PlanOutput.unnamed = p.outputs.map PlanOutput.unnamed
  dropped : p'.dropped = p.dropped

namespace Plan.SameUnnamed

variable {p p' p'' : Plan}

theorem trans (h : p.SameUnnamed p') (h' : p'.SameUnnamed p'') : p.SameUnnamed p'' :=
  ⟨h'.nodes.trans h.nodes, h'.outputs.trans h.outputs, h'.dropped.trans h.dropped⟩

theorem inputs (h : p.SameUnnamed p') :
    p'.inputs.map PlanNode.unnamed = p.inputs.map PlanNode.unnamed := by
  have hfilter (nodes : List PlanNode) :
      (nodes.filter fun q => q.primitive.kind = .input).map PlanNode.unnamed =
        (nodes.map PlanNode.unnamed).filter fun q => q.primitive.kind = .input := by
    rw [List.filter_map]
    rfl
  unfold Plan.inputs
  rw [hfilter, hfilter, h.nodes]

end Plan.SameUnnamed

theorem Plan.Resembles.sameUnnamed {p p' : Plan} (h : p.Resembles .unnamed p') : p.SameUnnamed p' := by
  have hnodes : List.Forall₂ Eq (p.nodes.map PlanNode.unnamed) (p'.nodes.map PlanNode.unnamed) := by
    rw [List.forall₂_map_left_iff, List.forall₂_map_right_iff]
    exact h.nodes.imp fun _ _ hq => hq.symm
  have houtputs : List.Forall₂ Eq (p.outputs.map PlanOutput.unnamed)
      (p'.outputs.map PlanOutput.unnamed) := by
    rw [List.forall₂_map_left_iff, List.forall₂_map_right_iff]
    exact h.outputs.imp fun _ _ hout => congrArg₂ PlanOutput.mk hout.1.symm hout.2.symm
  rw [List.forall₂_eq_eq_eq] at hnodes houtputs
  exact ⟨hnodes.symm, houtputs.symm, h.dropped⟩

theorem Model.Unfuses.exists_plan {o : Options} {name : String} {m m' : Model} {p : Plan}
    {pre followers post : List Node} {n base : Node} {links : List String}
    (h : m.Unfuses m' pre n base followers post links) (hm : m.Consistent) (hm' : m'.Consistent)
    (hreg : o.registry = .standard) (hplan : plan o name m = .ok p) (hn : n ∈ p.order) :
    ∃ p', plan o name m' = .ok p' ∧ p.SameUnnamed p' := by
  -- on the chain, whose last node is taken off first
  induction followers using List.reverseRecOn generalizing m n post links p with
  | nil => exact absurd (List.forall₂_nil_right_iff.mp h.supplies) h.carries
  | append_singleton front f ih =>
      obtain ⟨init, part, ws, w, rfl, hlast⟩ := h.exists_last
      have hfresh := h.fresh w (by simp)
      by_cases hinit : init = []
      · -- the base is what is left
        subst hinit
        obtain rfl : front = [] := List.forall₂_nil_left_iff.mp hlast.supplies
        have hlink : base.outputs = [w] := by
          obtain rfl : ws = [] := List.map_eq_nil_iff.mp hlast.reads.symm
          exact List.singleton_inj.mp hlast.writes
        have htrims : n.Trims ([] ++ [part]) base := hlast.parts ▸ h.trims
        have hfuses := hlast.fuses htrims hlink
        obtain ⟨p', hplan', hsplit⟩ := hfuses.exists_plan
          (hfuses.splits h.nodes h.nodes' h.tensors hfresh) hm hm' hreg hplan hn
        exact ⟨p', hplan', hsplit.toResembles.sameUnnamed⟩
      · have hfuses := hlast.fuses (n.trims_trimmed part base.id w) rfl
        have hm₁ := h.consistent_takeOff hlast hm hm'
        have hsplits : m.Splits (m.takeOff pre n f post part base.id w) pre n
            (n.trimmed part base.id w) f post w := hfuses.splits h.nodes rfl rfl hfresh
        obtain ⟨p₁, hplan₁, hsplit⟩ := hfuses.exists_plan hsplits hm hm₁ hreg hplan hn
        have hmem : n.trimmed part base.id w ∈ p₁.order := by
          obtain ⟨before, middle, after, _, horder⟩ := hsplit.order
          rw [horder]
          simp
        obtain ⟨p', hplan', hsame⟩ := ih (h.rest hlast hinit) hm₁ hplan₁ hmem
        exact ⟨p', hplan', hsplit.toResembles.sameUnnamed.trans hsame⟩

/-- A scheduled node with parts can be taken apart, strict mode or not: there is a plan with the same plan
nodes, inputs, outputs and nodes left out, but for the names of what the plan nodes come from. -/
theorem plan_of_unfused (o : Options) (name : String) (m m' : Model) (p : Plan)
    (pre followers post : List Node) (n base : Node) (links : List String)
    (hm : m.Reachable) (hm' : m'.Reachable) (hreg : o.registry = .standard)
    (hplan : plan o name m = .ok p) (hn : n ∈ p.order)
    (hunfuses : m.Unfuses m' pre n base followers post links) :
    ∃ p', plan o name m' = .ok p' ∧ p'.nodes.map PlanNode.unnamed = p.nodes.map PlanNode.unnamed ∧
      p'.inputs.map PlanNode.unnamed = p.inputs.map PlanNode.unnamed ∧
      p'.outputs.map PlanOutput.unnamed = p.outputs.map PlanOutput.unnamed ∧ p'.dropped = p.dropped := by
  obtain ⟨p', hplan', hsame⟩ := hunfuses.exists_plan hm.consistent hm'.consistent hreg hplan hn
  exact ⟨p', hplan', hsame.nodes, hsame.inputs, hsame.outputs, hsame.dropped⟩

/-! ### A convolution with a bias and an activation -/

/-- A filter of one element, and an offset for one channel. -/
def filterTensors : List Tensor :=
  [⟨"filter", [1, 1, 1, 1], .filterChannelRowColumn, #[⟨0⟩]⟩, ⟨"offset", [1], .channel, #[⟨0⟩]⟩]

theorem filterTensors_reachable : (Model.mk [] filterTensors).Reachable := by
  have hfilter : Model.empty.addTensor "filter" (.singles #[⟨0⟩]) .filterChannelRowColumn [1, 1, 1, 1] =
      .ok ⟨[], filterTensors.take 1⟩ := rfl
  have hoffset : (Model.mk [] (filterTensors.take 1)).addTensor "offset" (.singles #[⟨0⟩]) .channel [1] =
      .ok ⟨[], filterTensors⟩ := rfl
  exact .addTensor (.addTensor .empty hfilter) hoffset

def dotImage : Node :=
  { id := "image", kind := .input, outputs := ["x"], outputShapes := [⟨[1, 1, 1], .channelRowColumn⟩] }

/-- A convolution that carries all it can, and expects a border. -/
def fusedConvolution : Node :=
  { id := "conv", kind := .convolution, inputs := ["x"], outputs := ["y"]
    weights := [("weights", ⟨"filter", .unset⟩), ("bias", ⟨"offset", .unset⟩)]
    attributes := [("size", .integer 1), ("stride", .integer 1), ("activation", .word "relu")]
    inputPadding := ⟨1, .zeros⟩
    outputShapes := [⟨[1, 1, 1], .channelRowColumn⟩] }

def bareConvolution : Node :=
  (fusedConvolution.trimmed .activation "conv" "shifted").trimmed .bias "conv" "filtered"

/-- What the convolution carries, as nodes. -/
def convolutionParts : List Node :=
  [{ id := "bias", kind := .bias, inputs := ["filtered"], outputs := ["shifted"]
     weights := [("bias", ⟨"offset", .unset⟩)]
     outputShapes := [⟨[1, 1, 1], .channelRowColumn⟩] },
   { id := "relu", kind := .activation, inputs := ["shifted"], outputs := ["y"]
     attributes := [("activation", .word "relu")]
     outputShapes := [⟨[1, 1, 1], .channelRowColumn⟩] }]

theorem plan_of_unfused_fusedConvolution :
    ∃ p p', plan standardOptions "net" ⟨[dotImage, fusedConvolution], filterTensors⟩ = .ok p ∧
      plan standardOptions "net" ⟨dotImage :: bareConvolution :: convolutionParts, filterTensors⟩ = .ok p' ∧
      p'.nodes.map PlanNode.unnamed = p.nodes.map PlanNode.unnamed ∧
      p'.outputs.map PlanOutput.unnamed = p.outputs.map PlanOutput.unnamed := by
  have hreach : (Model.mk [dotImage, fusedConvolution] filterTensors).Reachable :=
    filterTensors_reachable.add_nodes ⟨by decide, by decide, by decide, by decide⟩
  have hreach' : (Model.mk (dotImage :: bareConvolution :: convolutionParts) filterTensors).Reachable :=
    filterTensors_reachable.add_nodes ⟨by decide, by decide, by decide, by decide⟩
  have hparts : fusedConvolution.partsCarried = [.bias] ++ [.activation] := by decide
  have hunfuses : (Model.mk [dotImage, fusedConvolution] filterTensors).Unfuses
      ⟨dotImage :: bareConvolution :: convolutionParts, filterTensors⟩ [dotImage] fusedConvolution
      bareConvolution convolutionParts [] ["filtered", "shifted"] := by
    refine ⟨rfl, rfl, rfl, by rw [hparts]; simp, ?_, ?_, rfl, rfl, by decide, by decide⟩
    · rw [hparts, (fusedConvolution.trims_trimmed .activation "conv" "shifted").concat_iff]
      exact Node.trims_trimmed _ _ _ _
    · rw [hparts]
      refine .cons ⟨rfl, rfl, rfl, by decide, nofun⟩ (.cons ⟨rfl, rfl, rfl, by decide, ?_⟩ .nil)
      exact List.forall_mem_cons.mpr ⟨rfl, List.forall_mem_singleton.mpr rfl⟩
  obtain ⟨p, hplan, horder⟩ : ∃ p,
      plan standardOptions "net" ⟨[dotImage, fusedConvolution], filterTensors⟩ = .ok p ∧
        p.order = [dotImage, fusedConvolution] := exists_plan_of_order (by cbv) (List.cons_ne_nil _ _)
  obtain ⟨p', hplan', hnodes, _, houtputs, _⟩ := plan_of_unfused standardOptions "net" _ _ p [dotImage]
    convolutionParts [] fusedConvolution bareConvolution ["filtered", "shifted"] hreach hreach' rfl hplan
    (by rw [horder]; simp) hunfuses
  exact ⟨p, p', hplan, hplan', hnodes, houtputs⟩

end NetLowering
