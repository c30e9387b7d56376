import NetLowering.Proofs.Emission
import NetLowering.Proofs.Replay
import NetLowering.Proofs.Resolution

/-! # Elementwise primitives

An elementwise primitive is to write a value of the shape it reads. Its converter reads the plan node before, or
the owner of the first input at the start of a block, but writes the shape that the node declares if it
declares one. Within a block both are the same, since the plan node before was written with that shape as well
(`standardBlock_isChain`). At the start of a block nothing compares them: there the shape is kept iff the
declaration agrees with the first input (`elementwise_keeps_shape_iff`). -/

namespace NetLowering

/-- The kinds that compute each element of their output from the elements at its place. -/
def PrimitiveKind.isElementwise : PrimitiveKind → Bool
  | .bias | .scaling | .batchNormalization | .activation | .softmax | .binaryOperation | .unaryOperation => true
  | _ => false

/-- All operands have the shape of the output. -/
def Primitive.KeepsShape (p : Primitive) : Prop := ∀ o ∈ p.operands, o.buffer.shape = p.output.shape

/-- If the node declares the shape of its output, it is that of its first input in the plan. -/
def Plan.ShapeAgrees (p : Plan) (n : Node) : Prop :=
  ∀ d, n.outputShapes.head? = some d → ∃ x k, n.inputs.head? = some x ∧ p.table.owner? x = some k ∧
    d.canonical 0 = .ok k.primitive.output.shape

/-! ### Converters -/

namespace Action

/-- Whether an action makes elementwise primitives. -/
def isElementwise (a : Action) : Bool := a.kind?.any PrimitiveKind.isElementwise

/-- Whether an action gives its output the shape of the node. -/
def writesNodeShape : Action → Bool
  | .input | .outputReorder | .inputReorder | .constant | .splice | .passthrough | .script _ => false
  | _ => true

theorem shape_eq_outputShape {a : Action} (h : a.writesNodeShape = true) (c : Context) :
    a.shape c = c.outputShape := by
  cases a with
  | input | outputReorder | inputReorder | constant | splice | passthrough | script => cases h
  | _ => rfl

theorem Makes.firstShape {a : Action} {c : Context} {p : Primitive} (h : a.Makes c p)
    (hreads : a.reads c.node = [0]) :
    p.operands ≠ [] ∧ ∀ o ∈ p.operands, c.firstShape = .ok o.buffer.shape := by
  obtain ⟨_, _, hmade⟩ := h
  have hoperands := hmade.operands
  rw [hreads, List.forall₂_cons_left_iff] at hoperands
  obtain ⟨o, rest, ⟨given, hgiven, rfl⟩, hnil, heq⟩ := hoperands
  rw [List.forall₂_nil_left_iff.mp hnil] at heq
  rw [heq]
  refine ⟨List.cons_ne_nil _ _, fun o' ho' => ?_⟩
  rw [List.mem_singleton.mp ho', view_shape, Context.firstShape, hgiven]
  rfl

end Action

/-- What the converter of an elementwise primitive makes sure of: all operands have the shape of the first, and
the output has the shape of the node. -/
structure Primitive.Elementwise (c : Context) (p : Primitive) : Prop where
  nonempty : p.operands ≠ []
  operands : ∀ o ∈ p.operands, c.firstShape = .ok o.buffer.shape
  output : c.outputShape = .ok p.output.shape

section origins
variable {c : Context} {sent : List PlanNode} {e : Element} {s : BlockRun} {q : PlanNode}

theorem BlockRun.Origin.isElementwise (h : Origin c sent e s q)
    (hq : q.primitive.kind.isElementwise = true) : e.converter.action.isElementwise = true := by
  obtain ⟨kind, hkind, hmade⟩ := h.makes
  rw [Action.isElementwise, hkind, ← hmade.kind]
  exact hq

theorem BlockRun.Origin.writes (h : Origin c sent e s q) (he : e.converter.action.writesNodeShape = true) :
    (s.here c e).outputShape = .ok q.primitive.output.shape := by
  obtain ⟨_, _, hmade⟩ := h.makes
  rw [← Action.shape_eq_outputShape he]
  exact hmade.shape

theorem BlockRun.Origin.elementwise (h : Origin c sent e s q)
    (hq : q.primitive.kind.isElementwise = true) : q.primitive.Elementwise (s.here c e) := by
  have haction := h.isElementwise hq
  have hmakes := h.makes
  have hstandard := h.standard
  cases ha : e.converter.action with
  | bias | minus | scaling | batchNormalization | activation | fixedActivation | softmax | unary =>
      rw [ha] at hmakes
      obtain ⟨hne, hfirst⟩ := hmakes.firstShape rfl
      exact ⟨hne, hfirst, h.writes (by rw [ha]; rfl)⟩
  | binary op =>
      -- the second operand has been compared with the first
      have hbinary : (s.here c e).convertBinary op = .ok q.primitive := h.built (by rw [ha]; rfl)
      obtain ⟨hmade, hfirst⟩ := ((s.here c e).convertBinary_ends op).result hbinary
      refine ⟨fun hnil => ?_, hfirst, hmade.shape⟩
      have hlen := hmade.operands.length_eq
      rw [hnil] at hlen
      cases hlen
  | script _ => rw [ha] at hstandard; cases hstandard
  | _ => rw [ha] at haction; cases haction

end origins

/-! ### Blocks -/

/-- If the second converter is elementwise, the first writes the shape of the node. -/
def Converter.Readies (first second : Converter) : Prop :=
  second.action.isElementwise = true → first.action.writesNodeShape = true

instance : DecidableRel Converter.Readies := fun first second =>
  inferInstanceAs (Decidable (second.action.isElementwise = true → first.action.writesNodeShape = true))

/-- In a standard block an elementwise converter comes right after one that writes the shape of the node. -/
theorem standardBlock_isChain {c : Context} {kind : OpKind} {applied : Block}
    (h : Block.applicable c (Registry.standardBlock kind) = .ok applied) :
    applied.IsChain Converter.Readies := by
  obtain ⟨rfl, hrequired⟩ := applicable_eq_ok h
  have hsome {block : Block} (hpairs : block.Pairwise Converter.Readies) :
      (block.filter fun cv => cv.applies c).IsChain Converter.Readies := (hpairs.filter _).isChain
  -- a copy of the input does not write that shape, but the convolution after it cannot be left out
  have hafter {first main : Converter} {rest : Block} (hmain : main.applies c = true)
      (hfirst : first.Readies main) (hpairs : (main :: rest).Pairwise Converter.Readies) :
      ((first :: main :: rest).filter fun cv => cv.applies c).IsChain Converter.Readies := by
    have hrest := hsome hpairs
    rw [List.filter_cons]
    split
    · rw [List.filter_cons, if_pos hmain] at hrest ⊢
      exact hrest.cons_cons hfirst
    · exact hrest
  cases kind with
  | convolution | binaryConvolution =>
      have hmain := hrequired _ (List.mem_cons_of_mem _ List.mem_cons_self) rfl
      exact hafter hmain (by decide) (by decide)
  | unlisted => exact hsome .nil
  | _ => exact hsome (by decide)

theorem Turn.readies {m : Model} {p : Plan} {n : Node} {c : Context} {applied : Block}
    (ht : Turn m p n c applied) {pre post : List Element} {e e' : Element}
    (h : Block.elements false applied = pre ++ e :: e' :: post) : e.converter.Readies e'.converter := by
  have hchain := standardBlock_isChain ht.block
  rw [← elements_converters false applied, h, List.map_append, List.map_cons, List.map_cons] at hchain
  exact (List.isChain_cons_cons.mp hchain.right_of_append).1

/-! ### Plans -/

theorem Context.outputShape_eq_ok {c : Context} {shape : Shape} (h : c.outputShape = .ok shape) :
    (∃ d, c.node.outputShapes.head? = some d ∧ d.canonical 0 = .ok shape) ∨
      c.node.outputShapes.head? = none ∧ c.firstShape = .ok shape := by
  unfold Context.outputShape at h
  split at h
  · rename_i d rest hdeclared
    rw [hdeclared]
    exact .inl ⟨d, rfl, h⟩
  · rename_i hnone
    rw [hnone]
    split at h
    · cases h
    · exact .inr ⟨rfl, h⟩

/-- The shape of a node is not changed by what its block emits in that shape. -/
theorem BlockRun.Origin.outputShape_eq {c : Context} {s s' : BlockRun} {e e' : Element} {k q : PlanNode}
    {sent : List PlanNode} {shape : Shape} (hq : Origin c (sent ++ [k]) e' s' q)
    (hk : (s.here c e).outputShape = .ok k.primitive.output.shape)
    (h : (s'.here c e').outputShape = .ok shape) : shape = k.primitive.output.shape := by
  rcases Context.outputShape_eq_ok h with ⟨d, hd, hshape⟩ | ⟨_, hshape⟩
  · rcases Context.outputShape_eq_ok hk with ⟨d', hd', hk⟩ | ⟨hnone, _⟩
    · cases hd.symm.trans hd'
      exact Except.ok.inj (hshape.symm.trans hk)
    · cases hd.symm.trans hnone
  · rw [Context.firstShape, hq.later] at hshape
    exact (Except.ok.inj hshape).symm

section turns
variable {m : Model} {p : Plan} {n : Node} {c : Context} {applied : Block} {q : PlanNode}

theorem Turn.keepsShape (ht : Turn m p n c applied) (hkind : q.primitive.kind.isElementwise = true)
    {before more : List PlanNode} {k : PlanNode}
    (hsplit : p.table.emitted n.id = before ++ k :: q :: more) : q.primitive.KeepsShape := by
  rcases ht.emits with ⟨hnil, _⟩ | hemits
  · rw [hnil] at hsplit
    simp at hsplit
  rw [hsplit] at hemits
  obtain ⟨pre, e, e', post, s, s', helements, hk, hq⟩ := hemits.neighbours
  obtain ⟨_, hoperands, houtput⟩ := hq.elementwise hkind
  have hfirst : (s'.here c e').firstShape = .ok k.primitive.output.shape := by
    rw [Context.firstShape, hq.later]
    rfl
  -- the plan node before was written with the shape of the node as well
  have hwrites := hk.writes (ht.readies helements (hq.isElementwise hkind))
  intro o ho
  rw [hq.outputShape_eq hwrites houtput]
  exact Except.ok.inj ((hoperands o ho).symm.trans hfirst)

/-- At the start of a block they do iff the node does not declare another. -/
theorem Turn.keepsShape_iff (ht : Turn m p n c applied) (hkind : q.primitive.kind.isElementwise = true)
    {more : List PlanNode} (hsplit : p.table.emitted n.id = q :: more) :
    q.primitive.KeepsShape ↔ p.ShapeAgrees n := by
  rcases ht.emits with ⟨hnil, _⟩ | hemits
  · rw [hnil] at hsplit
    cases hsplit
  rw [hsplit] at hemits
  generalize Block.elements false applied = elements at hemits
  cases hemits with
  | @cons _ _ e s _ _ horigin _ =>
      obtain ⟨hne, hoperands, houtput⟩ := horigin.elementwise hkind
      obtain ⟨o, ho⟩ := List.exists_mem_of_ne_nil _ hne
      obtain ⟨given, hgiven, _⟩ := bind_eq_ok_iff.mp (hoperands o ho)
      obtain ⟨x, k, hx, hk, rfl⟩ := horigin.first hgiven
      have hfirst : (s.here c e).firstShape = .ok k.primitive.output.shape := by
        rw [Context.firstShape, hgiven]
        rfl
      have hkeeps : q.primitive.KeepsShape ↔ k.primitive.output.shape = q.primitive.output.shape := by
        constructor
        · intro hkeeps
          rw [← hkeeps o ho]
          exact Except.ok.inj (hfirst.symm.trans (hoperands o ho))
        · intro hsame o' ho'
          rw [← hsame]
          exact Except.ok.inj ((hoperands o' ho').symm.trans hfirst)
      rw [ht.node] at hx
      rw [hkeeps]
      rcases Context.outputShape_eq_ok houtput with ⟨d, hd, hq⟩ | ⟨hnone, hq⟩
      · replace hd : n.outputShapes.head? = some d := ht.node ▸ hd
        constructor
        · intro hsame d' hd'
          cases hd.symm.trans hd'
          exact ⟨x, k, hx, ht.kept x k hk, by rw [hsame]; exact hq⟩
        · intro hagrees
          obtain ⟨x', k', hx', hk', hd'⟩ := hagrees d hd
          cases hx.symm.trans hx'
          cases (ht.kept x k hk).symm.trans hk'
          exact Except.ok.inj (hd'.symm.trans hq)
      · refine iff_of_true (Except.ok.inj (hfirst.symm.trans hq)) fun d hd => ?_
        replace hnone : n.outputShapes.head? = none := ht.node ▸ hnone
        cases hnone.symm.trans hd

end turns

/-- With the standard registry an elementwise plan node keeps the shape of its operands, unless it is the first
of its node and the node declares a shape that its first input does not have. -/
theorem elementwise_keeps_shape_iff (o : Options) (name : String) (m : Model) (p : Plan) (hm : m.Reachable)
    (hreg : o.registry = .standard) (h : plan o name m = .ok p) (q : PlanNode) (hq : q ∈ p.nodes)
    (hkind : q.primitive.kind.isElementwise = true) :
    ∃ n ∈ p.order, q ∈ p.table.emitted n.id ∧
      (q.primitive.KeepsShape ↔ ((p.table.emitted n.id).head? = some q → p.ShapeAgrees n)) := by
  obtain ⟨paddings, start, final, hp⟩ := plan_eq_ok h
  rw [hp.nodes_eq hm.consistent, List.mem_flatMap] at hq
  obtain ⟨n, hn, hq⟩ := hq
  obtain ⟨c, applied, ht⟩ := hp.turn hm.consistent hreg hn
  refine ⟨n, hn, hq, ?_⟩
  by_cases hhead : (p.table.emitted n.id).head? = some q
  · obtain ⟨more, hsplit⟩ := List.head?_eq_some_iff.mp hhead
    rw [ht.keepsShape_iff hkind hsplit]
    exact ⟨fun hagrees _ => hagrees, fun hagrees => hagrees hhead⟩
  · refine iff_of_true ?_ fun hhead' => absurd hhead' hhead
    obtain ⟨before, more, hsplit⟩ := List.append_of_mem hq
    rcases List.eq_nil_or_concat before with rfl | ⟨before, k, rfl⟩
    · rw [hsplit] at hhead
      exact absurd rfl hhead
    · rw [List.concat_eq_append, List.append_assoc] at hsplit
      exact ht.keepsShape hkind hsplit

/-- An image with a rectifier that declares another shape than it reads, and one that declares none. -/
def stretchedImage : List Node :=
  [{ id := "image", kind := .input, outputs := ["a"], outputShapes := [⟨[3, 4, 4], .channelRowColumn⟩] },
   { id := "stretch", kind := .relu, inputs := ["a"], outputs := ["b"]
     outputShapes := [⟨[5, 7, 7], .channelRowColumn⟩] },
   { id := "keep", kind := .relu, inputs := ["b"], outputs := ["c"] }]

theorem elementwise_keeps_shape_stretchedImage :
    ∃ p, plan standardOptions "net" ⟨stretchedImage, []⟩ = .ok p ∧
    p.nodes.map (fun q => (q.primitive.kind, q.primitive.operands.map fun o => o.buffer.shape,
        q.primitive.output.shape)) =
      [(.input, [], ⟨4, 4, 3⟩), (.activation, [⟨4, 4, 3⟩], ⟨7, 7, 5⟩),
        (.activation, [⟨7, 7, 5⟩], ⟨7, 7, 5⟩)] ∧
    ∃ n ∈ p.order, ∃ q ∈ p.table.emitted n.id, ¬ q.primitive.KeepsShape ∧ ¬ p.ShapeAgrees n := by
  have hreach : (Model.mk stretchedImage []).Reachable :=
    Model.reachable_of_consistent ⟨by decide, by decide, by decide, by decide⟩
  obtain ⟨p, hplan, hnodes⟩ : ∃ p, plan standardOptions "net" ⟨stretchedImage, []⟩ = .ok p ∧
      p.nodes.map (fun q => (q.primitive.kind, q.primitive.operands.map fun o => o.buffer.shape,
          q.primitive.output.shape)) =
        [(.input, [], ⟨4, 4, 3⟩), (.activation, [⟨4, 4, 3⟩], ⟨7, 7, 5⟩),
          (.activation, [⟨7, 7, 5⟩], ⟨7, 7, 5⟩)] := exists_plan_of_view (by cbv)
  refine ⟨p, hplan, hnodes, ?_⟩
  have hmem : (PrimitiveKind.activation, [Shape.mk 4 4 3], Shape.mk 7 7 5) ∈ p.nodes.map fun q =>
      (q.primitive.kind, q.primitive.operands.map fun o => o.buffer.shape, q.primitive.output.shape) := by
    rw [hnodes]; simp
  obtain ⟨q, hq, hview⟩ := List.mem_map.mp hmem
  obtain ⟨hkind, hoperands, houtput⟩ : q.primitive.kind = .activation ∧
      q.primitive.operands.map (fun o => o.buffer.shape) = [⟨4, 4, 3⟩] ∧
      q.primitive.output.shape = ⟨7, 7, 5⟩ := by simpa using hview
  have hchanges : ¬ q.primitive.KeepsShape := by
    intro hkeeps
    have hshape : (⟨4, 4, 3⟩ : Shape) ∈ q.primitive.operands.map fun o => o.buffer.shape := by
      rw [hoperands]; simp
    obtain ⟨o, ho, hshape⟩ := List.mem_map.mp hshape
    have hsame := hkeeps o ho
    rw [hshape, houtput] at hsame
    exact absurd hsame (by decide)
  obtain ⟨n, hn, hemitted, hiff⟩ := elementwise_keeps_shape_iff standardOptions "net" _ p hreach rfl hplan q hq
    (by rw [hkind]; rfl)
  rw [hiff] at hchanges
  refine ⟨n, hn, q, hemitted, hiff.not.mpr hchanges, fun hagrees => hchanges fun _ => hagrees⟩

end NetLowering
