import Mathlib
import NetLowering.Proofs.Decomposition
import NetLowering.Proofs.Tracing

/-! # How operands are read

An operand names the plan node it comes from and a buffer to read. The shape of the buffer is always the one that
the plan node was written with. The border is too, except for matrix products and poolings, which read with the
border that their node expects. Convolutions do the same, but a copy of their input is made whenever it was
written with another border, so that what they expect is also what they find. All this is `Operand.ReadFrom`, and
`plan_reads_as_written` shows it of every operand of a plan. -/

namespace NetLowering

/-- How an operand of a primitive of some kind, in a node that expects a border around its input, reads the plan
node it comes from. -/
structure Operand.ReadFrom (o : Operand) (kind : PrimitiveKind) (expected : Padding) (k : PlanNode) : Prop where
  shape : o.buffer.shape = k.primitive.output.shape
  written : kind ≠ .fullyConnected → kind ≠ .pooling → o.buffer.padding = k.primitive.output.padding
  expected : kind.expectsBorder = true → o.buffer.padding = expected

/-! ### Converters -/

namespace Action

variable {a : Action} {kind : PrimitiveKind}

theorem isConvolution_of_kind (h : a.kind? = some kind) (hscript : a.isScript = false)
    (hborder : a.expectsBorder = true) (hproduct : kind ≠ .fullyConnected) (hpooling : kind ≠ .pooling) :
    a.isConvolution = true := by
  cases a with
  | convolution | binaryConvolution => rfl
  | fullyConnected => cases h; exact absurd rfl hproduct
  | pooling | fixedPooling => cases h; exact absurd rfl hpooling
  | script => cases hscript
  | _ => cases hborder

theorem view_of_expectsBorder (hscript : a.isScript = false) (h : a.expectsBorder = true) (c : Context)
    (o : Operand) : a.view c o = c.padded o := by
  cases a with
  | convolution | binaryConvolution | fullyConnected | pooling | fixedPooling => rfl
  | script => cases hscript
  | _ => cases h

theorem view_of_not_expectsBorder (h : a.expectsBorder = false) (c : Context) (o : Operand) : a.view c o = o := by
  cases a with
  | convolution | binaryConvolution | fullyConnected | pooling | fixedPooling => cases h
  | _ => rfl

theorem reads_of_isConvolution (h : a.isConvolution = true) (n : Node) : a.reads n = [0] := by
  cases a with
  | convolution | binaryConvolution => rfl
  | _ => cases h

end Action

/-! ### Blocks -/

/-- In a block only the main converter may expect a border, and it is the first that counts. -/
theorem elements_of_expectsBorder {copies rest : Block} {main : Converter} {pre post : List Element} {e : Element}
    (hcopies : ∀ cv ∈ copies, cv.adapter = true ∧ cv.action.expectsBorder = false) (hmain : main.adapter = false)
    (hrest : ∀ cv ∈ rest, cv.action.expectsBorder = false) (he : e.converter.action.expectsBorder = true)
    (h : Block.elements false (copies ++ main :: rest) = pre ++ e :: post) :
    pre.map Element.converter = copies ∧ e.converter = main ∧ e.isFirst = true := by
  rw [elements_append_of_adapters false fun cv hcv => (hcopies cv hcv).1, Block.elements] at h
  have hbefore : e ∉ copies.map fun cv => (⟨cv, false, false⟩ : Element) := by
    intro hmem
    obtain ⟨cv, hcv, rfl⟩ := List.mem_map.mp hmem
    rw [(hcopies cv hcv).2] at he
    cases he
  have hafter : e ∉ Block.elements (false || !main.adapter) rest := by
    intro hmem
    have hcv : e.converter ∈ rest := by
      rw [← elements_converters (false || !main.adapter) rest]
      exact List.mem_map_of_mem hmem
    rw [hrest _ hcv] at he
    cases he
  obtain ⟨rfl, rfl, _⟩ := (List.append_cons_inj_of_notMem hbefore hafter).mp h
  refine ⟨?_, rfl, by rw [hmain]; rfl⟩
  rw [List.map_map]
  exact List.map_id copies

section turns
variable {m : Model} {p : Plan} {n : Node} {c : Context} {applied : Block} {q : PlanNode}

/-- A plan node that is read with the border its node expects is the first that counts, and nothing but copies of
the input comes before it. -/
theorem Turn.place_of_expectsBorder (ht : Turn m p n c applied) (hne : p.table.emitted n.id ≠ [])
    {pre post : List Element} {e : Element} (helements : Block.elements false applied = pre ++ e :: post)
    (he : e.converter.action.expectsBorder = true) :
    e.isFirst = true ∧
      (e.converter.action.isConvolution = true → pre.map Element.converter = p.copyRead n) := by
  obtain ⟨copies, main, rest, hemitters, hcopies, hmain, hcopyRead, hrest, _⟩ :=
    p.emitters_form (ht.emitters_ne_nil hne)
  have hadapters : ∀ cv ∈ copies, cv.adapter = true ∧ cv.action.expectsBorder = false := by
    rcases hcopies with rfl | rfl <;> decide
  rw [ht.applied_eq hne, hemitters] at helements
  obtain ⟨hpre, heq, hfirst⟩ := elements_of_expectsBorder hadapters hmain hrest he helements
  refine ⟨hfirst, fun hconv => ?_⟩
  rw [heq] at hconv
  rw [hpre, hcopyRead hconv]

/-- A convolution finds the border it expects: its input has it already, or it has been copied for it. -/
theorem Turn.border_of_convolution (ht : Turn m p n c applied) {sent : List PlanNode} {pre : List Element}
    {e : Element} {s : BlockRun} (hpre : pre.map Element.converter = p.copyRead n)
    (hsent : BlockRun.Emits c [] pre sent) (horigin : BlockRun.Origin c sent e s q) {k : PlanNode}
    (hgiven : (s.here c e).input 0 = .ok k.asOperand) : k.primitive.output.padding = n.inputPadding := by
  unfold Plan.copyRead at hpre
  split at hpre
  · -- the plan node before is the copy
    obtain ⟨copy, rfl, hcopy⟩ := List.map_eq_singleton_iff.mp hpre
    cases hsent with
    | @cons _ _ _ _ k' _ hk' hnil =>
        cases hnil
        have horigin' : BlockRun.Origin c ([] ++ [k']) e s q := horigin
        have hsame : k.asOperand = k'.asOperand := Except.ok.inj (hgiven.symm.trans horigin'.later)
        have hborder := hk'.border
        rw [Element.border, hcopy] at hborder
        rw [show k.primitive.output = k'.primitive.output from congrArg Operand.buffer hsame, hborder, ← ht.node]
        rfl
  · rename_i hwritten
    have hnil : pre = [] := List.map_eq_nil_iff.mp hpre
    subst hnil
    cases hsent
    obtain ⟨x, k', hx, hk', hsame⟩ := horigin.first hgiven
    rw [ht.borderRead?_eq (ht.node ▸ hx) hk', Option.any_some, decide_eq_true_eq, not_not] at hwritten
    rw [show k.primitive.output = k'.primitive.output from congrArg Operand.buffer hsame, hwritten]

/-- Every operand of a plan node is read from another one as it should be. -/
theorem Turn.readFrom (ht : Turn m p n c applied) (hq : q ∈ p.table.emitted n.id) {o : Operand}
    (ho : o ∈ q.primitive.operands) :
    ∃ k ∈ p.nodes, k.id = o.source ∧ o.ReadFrom q.primitive.kind n.inputPadding k := by
  obtain ⟨sent, pre, e, post, s, helements, hsent, horigin, hnodes⟩ := ht.place hq
  obtain ⟨kind, hkind, hmade⟩ := horigin.makes
  obtain ⟨index, hindex, given, hgiven, rfl⟩ := exists_mem_of_forall₂ hmade.operands.flip o ho
  obtain ⟨k, hk, _, rfl⟩ := horigin.source hgiven
  -- what expects a border comes first in its block, and so reads with the border of the node
  have hplace (hborder : e.converter.action.expectsBorder = true) :=
    ht.place_of_expectsBorder (List.ne_nil_of_mem hq) helements hborder
  have hpadded (hborder : e.converter.action.expectsBorder = true) :
      (e.converter.action.view (s.here c e) k.asOperand).buffer.padding = n.inputPadding := by
    rw [Action.view_of_expectsBorder horigin.standard hborder]
    show (s.here c e).inputPadding = n.inputPadding
    rw [Context.inputPadding, if_pos (show (s.here c e).isFirst = true from (hplace hborder).1)]
    exact congrArg Node.inputPadding ht.node
  rw [hmade.kind]
  refine ⟨k, hnodes k hk, (Action.view_source _ _ k.asOperand).symm, Action.view_shape _ _ k.asOperand,
    fun hproduct hpooling => ?_, fun hexpects => hpadded ?_⟩
  · cases hborder : e.converter.action.expectsBorder with
    | false =>
        rw [Action.view_of_not_expectsBorder hborder]
        rfl
    | true =>
        have hconv := Action.isConvolution_of_kind hkind horigin.standard hborder hproduct hpooling
        rw [Action.reads_of_isConvolution hconv, List.mem_singleton] at hindex
        rw [hindex] at hgiven
        rw [hpadded hborder, ht.border_of_convolution ((hplace hborder).2 hconv) hsent horigin hgiven]
  · rw [Action.expectsBorder, hkind]
    exact hexpects

end turns

/-- With the standard registry every operand has the shape of the plan node it comes from. It also has its border,
unless it belongs to a matrix product or a pooling; these and convolutions read with the border that their node
expects. -/
theorem plan_reads_as_written (o : Options) (name : String) (m : Model) (p : Plan) (hm : m.Reachable)
    (hreg : o.registry = .standard) (h : plan o name m = .ok p) :
    ∀ q ∈ p.nodes, ∃ n ∈ p.order, p.table.origin? q.id = some n ∧ ∀ operand ∈ q.primitive.operands,
      ∃ k ∈ p.nodes, (∀ k' ∈ p.nodes, k'.id = operand.source ↔ k' = k) ∧
        operand.ReadFrom q.primitive.kind n.inputPadding k := by
  intro q hq
  obtain ⟨paddings, start, final, hp⟩ := plan_eq_ok h
  have hcons := hm.consistent
  rw [hp.nodes_eq hcons, List.mem_flatMap] at hq
  obtain ⟨n, hn, hq⟩ := hq
  obtain ⟨c, applied, ht⟩ := hp.turn hcons hreg hn
  refine ⟨n, hn, (hp.origin?_eq_some_iff hcons).mpr ⟨hn, q, hq, rfl⟩, fun operand hoperand => ?_⟩
  obtain ⟨k, hk, hsource, hread⟩ := ht.readFrom hq hoperand
  refine ⟨k, hk, fun k' hk' => ⟨fun hid => ?_, fun hsame => hsame ▸ hsource⟩, hread⟩
  exact List.inj_on_of_nodup_map hp.ordered.ids_nodup hk' hk (hid.trans hsource.symm)

/-- The image of `sharedImage` with another reader, a pooling that expects a border of its own. -/
def pooledImage : List Node :=
  sharedImage ++ [{ id := "pool", kind := .maxPooling, inputs := ["x"], outputs := ["pooled"]
                    attributes := [("size", .integer 2), ("stride", .integer 1)]
                    inputPadding := ⟨3, .min⟩ }]

/-- The borders that the plan nodes of `pooledImage` read and write. -/
def pooledBorders : List (PrimitiveKind × List Padding × Padding) :=
  [(.input, [], .absent), (.activation, [.absent], .absent), (.reorder, [.absent], ⟨1, .zeros⟩),
   (.convolution, [⟨1, .zeros⟩], .absent), (.bias, [.absent], .absent), (.activation, [.absent], ⟨2, .max⟩),
   (.batchNormalization, [⟨2, .max⟩], .absent), (.pooling, [⟨3, .min⟩], .absent)]

theorem plan_reads_as_written_pooledImage :
    ∃ p, plan standardOptions "net" ⟨pooledImage, filterTensors⟩ = .ok p ∧
      p.nodes.map (fun q => (q.primitive.kind, q.primitive.operands.map fun operand => operand.buffer.padding,
        q.primitive.output.padding)) = pooledBorders ∧
      ∀ q ∈ p.nodes, ∃ n ∈ p.order, p.table.origin? q.id = some n ∧ ∀ operand ∈ q.primitive.operands,
        ∃ k ∈ p.nodes, (∀ k' ∈ p.nodes, k'.id = operand.source ↔ k' = k) ∧
          operand.ReadFrom q.primitive.kind n.inputPadding k := by
  have hreach : (Model.mk pooledImage filterTensors).Reachable :=
    filterTensors_reachable.add_nodes ⟨by decide, by decide, by decide, by decide⟩
  obtain ⟨p, hplan, hnodes⟩ : ∃ p, plan standardOptions "net" ⟨pooledImage, filterTensors⟩ = .ok p ∧
      p.nodes.map (fun q => (q.primitive.kind, q.primitive.operands.map fun operand => operand.buffer.padding,
        q.primitive.output.padding)) = pooledBorders := exists_plan_of_view (by cbv)
  exact ⟨p, hplan, hnodes, plan_reads_as_written standardOptions "net" _ p hreach rfl hplan⟩

end NetLowering
