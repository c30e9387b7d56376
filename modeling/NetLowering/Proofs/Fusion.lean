import Mathlib.Data.List.Find
import NetLowering.Proofs.SplitRun

/-! # Fused blocks

A convolution may carry a bias and an activation, which its block applies to what the convolution gives;
other kinds carry other parts. The block does what separate nodes would do: the converters of the stem and of
the parts go on from one another as nodes do that read one another. This module compares a node with two
nodes, one that lacks the last of the parts carried and one that supplies it (`Node.Fuses`). The blocks of
the two run as the one block does, since nothing is padded inside a block nor on the link between the two
(`Node.Fuses.lower_apart`). -/

namespace NetLowering

/-- What a node of some kinds may carry besides what its kind is about. -/
inductive Part where
  | scaling
  | bias
  | activation
deriving DecidableEq

namespace Part

def kind : Part → OpKind
  | scaling => .scaling
  | bias => .bias
  | activation => .activation

def converter : Part → Converter
  | scaling => Registry.scaling
  | bias => Registry.bias
  | activation => Registry.activation

end Part

namespace OpKind

def parts : OpKind → List Part
  | .convolution | .binaryConvolution | .fullyConnected => [.bias, .activation]
  | .batchNormalization => [.scaling, .bias]
  | _ => []

/-- The converters of a kind that come before those of its parts. -/
def stem : OpKind → Block
  | .convolution => [Registry.inputReorder, Registry.convolution]
  | .binaryConvolution => [Registry.inputReorder, Registry.binaryConvolution]
  | .fullyConnected => [Registry.fullyConnected]
  | .batchNormalization => [Registry.batchNormalization]
  | _ => []

end OpKind

/-- The parts as elements of a larger block. -/
def Part.block (parts : List Part) : Block := parts.map fun part => part.converter.asOptional

namespace Node

def carries (n : Node) : Part → Bool
  | .scaling => n.hasWeight "scale"
  | .bias => n.hasWeight "bias"
  | .activation => n.hasAttribute "activation"

/-- The parts that the node carries, of those its kind knows. -/
def partsCarried (n : Node) : List Part := n.kind.parts.filter n.carries

/-- The node `b` is the node without some parts, as far as it is lowered. -/
structure Trims (n : Node) (parts : List Part) (b : Node) : Prop where
  kind : b.kind = n.kind
  inputs : b.inputs = n.inputs
  inputPadding : b.inputPadding = n.inputPadding
  outputShapes : b.outputShapes = n.outputShapes
  weights : ∀ role, b.weight? role =
    if ∃ part ∈ parts, role ∈ part.converter.weights then none else n.weight? role
  attributes : ∀ name, b.attribute? name =
    if ∃ part ∈ parts, name ∈ part.converter.attributes then none else n.attribute? name

/-- The node `f` does a part of what the node does: it has what the part asks for, and expects no border. -/
structure Supplies (n : Node) (part : Part) (f : Node) : Prop where
  kind : f.kind = part.kind
  inputPadding : f.inputPadding = .absent
  outputShapes : f.outputShapes = n.outputShapes
  weights : ∀ role ∈ part.converter.action.roles, f.weight? role = n.weight? role
  attributes : ∀ name ∈ part.converter.action.names, f.attribute? name = n.attribute? name

end Node

/-! ### The converters of these kinds -/

theorem Registry.standard_part (part : Part) : standard.lookup part.kind = .ok [part.converter] := by
  cases part <;> rfl

theorem Registry.standard_stem {kind : OpKind} (h : kind.parts ≠ []) :
    standard.lookup kind = .ok (kind.stem ++ Part.block kind.parts) := by
  cases kind with
  | convolution | binaryConvolution | fullyConnected | batchNormalization => rfl
  | _ => exact absurd rfl h

/-- What the converters of these blocks have in common. -/
structure Converter.Serial (cv : Converter) : Prop where
  action : cv.action = .inputReorder ∨ cv.action.isLocal = true
  plain : cv.action.isScript = false ∧ cv.action.mayForward = false
  condition : ∀ condition ∈ cv.condition, condition = .inputPaddedOtherwise
  optional : cv.optional = true ∨ cv.isRequired = true

/-- The converter does not look at what the part asks for. -/
structure Converter.Ignores (cv : Converter) (part : Part) : Prop where
  weights : ∀ role ∈ cv.weights ++ cv.action.roles, role ∉ part.converter.weights
  attributes : ∀ name ∈ cv.attributes ++ cv.action.names, name ∉ part.converter.attributes

theorem stem_serial {kind : OpKind} {cv : Converter} (h : cv ∈ kind.stem) : cv.Serial := by
  cases kind with
  | convolution | binaryConvolution =>
      simp only [OpKind.stem, List.mem_cons, List.not_mem_nil, or_false] at h
      rcases h with rfl | rfl
      · exact ⟨.inl rfl, ⟨rfl, rfl⟩, fun condition h => (Option.some.inj h).symm, .inl rfl⟩
      · exact ⟨.inr rfl, ⟨rfl, rfl⟩, nofun, .inr rfl⟩
  | fullyConnected | batchNormalization =>
      rw [List.mem_singleton.mp h]
      exact ⟨.inr rfl, ⟨rfl, rfl⟩, nofun, .inr rfl⟩
  | _ => cases h

theorem stem_ignores {kind : OpKind} (part : Part) {cv : Converter} (h : cv ∈ kind.stem) :
    cv.Ignores part := by
  cases kind with
  | convolution | binaryConvolution =>
      simp only [OpKind.stem, List.mem_cons, List.not_mem_nil, or_false] at h
      rcases h with rfl | rfl <;> cases part <;> exact ⟨by decide, by decide⟩
  | fullyConnected | batchNormalization =>
      rw [List.mem_singleton.mp h]
      cases part <;> exact ⟨by decide, by decide⟩
  | _ => cases h

theorem part_serial (part : Part) : part.converter.asOptional.Serial := by
  cases part <;> exact ⟨.inr rfl, ⟨rfl, rfl⟩, nofun, .inl rfl⟩

theorem part_ignores {part other : Part} (h : other ≠ part) : other.converter.Ignores part := by
  cases other <;> cases part <;> first | exact absurd rfl h | exact ⟨by decide, by decide⟩

theorem part_counts (part : Part) : part.converter.adapter = false := by
  cases part <;> rfl

theorem exists_core {kind : OpKind} (h : kind.parts ≠ []) :
    ∃ cv ∈ kind.stem, cv.isRequired = true ∧ cv.adapter = false := by
  cases kind with
  | convolution => exact ⟨Registry.convolution, by simp [OpKind.stem], rfl, rfl⟩
  | binaryConvolution => exact ⟨Registry.binaryConvolution, by simp [OpKind.stem], rfl, rfl⟩
  | fullyConnected => exact ⟨Registry.fullyConnected, by simp [OpKind.stem], rfl, rfl⟩
  | batchNormalization => exact ⟨Registry.batchNormalization, by simp [OpKind.stem], rfl, rfl⟩
  | _ => exact absurd rfl h

theorem parts_nodup (kind : OpKind) : kind.parts.Nodup := by
  cases kind with
  | convolution | binaryConvolution | fullyConnected | batchNormalization => decide
  | _ => exact List.nodup_nil

/-! ### Nodes without a part -/

theorem Node.ne_of_partsCarried {n : Node} {init : List Part} {part other : Part}
    (h : n.partsCarried = init ++ [part]) (hother : other ∈ init) : other ≠ part := by
  have hnodup : n.partsCarried.Nodup := (parts_nodup n.kind).filter _
  rw [h, List.nodup_append] at hnodup
  exact hnodup.2.2 other hother part (List.mem_singleton_self part)

theorem lacks_nothing_part (part : Part) (n : Node) :
    ((part.converter.lackingWeight? n).isNone && (part.converter.lackingAttribute? n).isNone) =
      n.carries part := by
  unfold Converter.lackingWeight? Converter.lackingAttribute?
  cases part with
  | scaling => cases h : n.hasWeight "scale" <;> simp [Part.converter, Registry.scaling, Node.carries, h]
  | bias => cases h : n.hasWeight "bias" <;> simp [Part.converter, Registry.bias, Node.carries, h]
  | activation =>
      cases h : n.hasAttribute "activation" <;>
        simp [Part.converter, Registry.activation, Node.carries, h]

namespace Node.Trims

variable {n b : Node} {part : Part} (h : n.Trims [part] b)
include h

theorem weight?_eq {role : String} (hrole : role ∉ part.converter.weights) :
    b.weight? role = n.weight? role := by
  rw [h.weights, if_neg (by simpa using hrole)]

theorem attribute?_eq {name : String} (hname : name ∉ part.converter.attributes) :
    b.attribute? name = n.attribute? name := by
  rw [h.attributes, if_neg (by simpa using hname)]

theorem lackingWeight?_eq {cv : Converter} (hcv : cv.Ignores part) :
    cv.lackingWeight? b = cv.lackingWeight? n := by
  refine List.find?_congr fun role hrole => ?_
  unfold Node.hasWeight
  rw [h.weight?_eq (hcv.weights role (List.mem_append_left _ hrole))]

theorem lackingAttribute?_eq {cv : Converter} (hcv : cv.Ignores part) :
    cv.lackingAttribute? b = cv.lackingAttribute? n := by
  refine List.find?_congr fun name hname => ?_
  unfold Node.hasAttribute
  rw [h.attribute?_eq (hcv.attributes name (List.mem_append_left _ hname))]

theorem carries_eq (other : Part) : b.carries other = (n.carries other && decide (other ≠ part)) := by
  by_cases heq : other = part
  · subst heq
    cases other with
    | scaling | bias => simp [carries, hasWeight, h.weights, Part.converter, Registry.scaling, Registry.bias]
    | activation => simp [carries, hasAttribute, h.attributes, Part.converter, Registry.activation]
  · have hcv := part_ignores heq
    rw [← lacks_nothing_part, ← lacks_nothing_part, h.lackingWeight?_eq hcv, h.lackingAttribute?_eq hcv,
      decide_eq_true heq, Bool.and_true]

theorem partsCarried_eq {init : List Part} (hparts : n.partsCarried = init ++ [part]) :
    b.partsCarried = init := by
  have hfilter : b.partsCarried = n.partsCarried.filter (· ≠ part) := by
    unfold partsCarried
    rw [h.kind, List.filter_filter]
    exact List.filter_congr fun other _ => (h.carries_eq other).trans (Bool.and_comm _ _)
  rw [hfilter, hparts, List.filter_append, List.filter_eq_self.mpr]
  · simp
  · exact fun other hother => decide_eq_true (ne_of_partsCarried hparts hother)

end Node.Trims

theorem Node.Supplies.carries_eq {n f : Node} {part : Part} (h : n.Supplies part f) :
    f.carries part = n.carries part := by
  cases part with
  | scaling => exact congrArg Option.isSome (h.weights "scale" (by decide))
  | bias => exact congrArg Option.isSome (h.weights "bias" (by decide))
  | activation => exact congrArg Option.isSome (h.attributes "activation" (by decide))

/-! ### Blocks -/

section blocks
variable {k : Correspondence} {c c' : Context} {part : Part}

theorem applies_part (part : Part) (c : Context) : part.converter.applies c = c.node.carries part := by
  have hcondition : part.converter.condition = none := by cases part <;> rfl
  unfold Converter.applies
  rw [lacks_nothing_part, hcondition, Option.all_none, Bool.and_true]

theorem filter_block (c : Context) (parts : List Part) :
    (Part.block parts).filter (fun cv => cv.applies c) = Part.block (parts.filter c.node.carries) := by
  unfold Part.block
  rw [List.filter_map]
  exact congrArg _ (List.filter_congr fun part _ => applies_part part c)

theorem applicable_part (h : c.node.carries part = true) :
    Block.applicable c [part.converter] = .ok [part.converter] := by
  have hlacks := lacks_nothing_part part c.node
  rw [h, Bool.and_eq_true, Option.isNone_iff_eq_none, Option.isNone_iff_eq_none] at hlacks
  have hoptional : ∀ cv ∈ [part.converter], cv.optional = true ∨
      cv.lackingWeight? c.node = none ∧ cv.lackingAttribute? c.node = none := by
    intro cv hcv
    rw [List.mem_singleton.mp hcv]
    exact .inr hlacks
  rw [applicable_eq_filter hoptional, List.filter_cons, applies_part, h]
  rfl

theorem Node.Trims.applies_eq (h : c.node.Trims [part] c'.node) (hsees : c.Sees k c') {cv : Converter}
    (hserial : cv.Serial) (hignores : cv.Ignores part) : cv.applies c' = cv.applies c := by
  have hcondition : (cv.condition.all fun condition => condition.holds c') =
      cv.condition.all fun condition => condition.holds c := by
    cases hc : cv.condition with
    | none => rw [Option.all_none, Option.all_none]
    | some condition =>
        rw [hserial.condition condition hc, Option.all_some, Option.all_some]
        exact hsees.inputPaddedOtherwise h.inputPadding
  unfold Converter.applies
  rw [h.lackingWeight?_eq hignores, h.lackingAttribute?_eq hignores, hcondition]

/-- Without a part the block is the same but for the converter of the part. -/
theorem Node.Trims.applicable_eq (h : c.node.Trims [part] c'.node) (hsees : c.Sees k c') {block : Block}
    (happ : Block.applicable c (c.node.kind.stem ++ Part.block c.node.kind.parts) = .ok block) :
    block = c.node.kind.stem.filter (fun cv => cv.applies c) ++ Part.block c.node.partsCarried ∧
      Block.applicable c' (c.node.kind.stem ++ Part.block c.node.kind.parts) =
        .ok (c.node.kind.stem.filter (fun cv => cv.applies c) ++ Part.block c'.node.partsCarried) := by
  obtain ⟨hblock, hrequired⟩ := applicable_eq_ok happ
  constructor
  · rw [hblock, List.filter_append, filter_block]
    rfl
  · rw [applicable_eq_filter, List.filter_append, filter_block]
    · unfold Node.partsCarried
      rw [h.kind]
      refine congrArg Except.ok (congrArg (· ++ _) (List.filter_congr fun cv hcv => ?_))
      exact h.applies_eq hsees (stem_serial hcv) (stem_ignores part hcv)
    · intro cv hcv
      rcases List.mem_append.mp hcv with hstem | hpart
      · refine (stem_serial hstem).optional.imp_right fun hreq => ?_
        have happlies := hrequired cv hcv hreq
        unfold Converter.applies at happlies
        simp only [Bool.and_eq_true, Option.isNone_iff_eq_none] at happlies
        rw [h.lackingWeight?_eq (stem_ignores part hstem), h.lackingAttribute?_eq (stem_ignores part hstem)]
        exact happlies.1
      · obtain ⟨other, _, rfl⟩ := List.mem_map.mp hpart
        exact .inl rfl

/-- The element with another one after it. -/
def Element.inner (e : Element) : Element := ⟨e.converter, e.isFirst, false⟩

/-- One more converter at the end of a block is the last of it, and no other is. -/
theorem elements_concat_eq (begun : Bool) (block : Block) (cv : Converter) (hcv : cv.adapter = false) :
    Block.elements begun (block ++ [cv]) = (Block.elements begun block).map Element.inner ++
      [⟨cv, !(begun || block.any fun other => !other.adapter), true⟩] := by
  induction block generalizing begun with
  | nil => simp [Block.elements, hcv]
  | cons other rest ih => simp [Block.elements, Element.inner, ih, hcv, Bool.or_assoc]

theorem BlockRun.exists_previous {s t : BlockRun} {sent : List PlanNode} {elements : List Element}
    (hs : BlockRun.Tracks c s sent) (hne : elements ≠ [])
    (hplain : ∀ e ∈ elements, e.converter.action.isScript = false ∧
      e.converter.action.mayForward = false)
    (h : elements.foldlM (BlockRun.step c) s = .ok t) : ∃ q, t.previous = some q := by
  obtain ⟨init, e, rfl⟩ := (List.eq_nil_or_concat elements).resolve_left hne
  rw [List.concat_eq_append] at h hplain
  obtain ⟨s₁, s₂, hinit, hstep, hnil⟩ := foldlM_append_cons_eq_ok h
  cases hnil
  obtain ⟨sent₁, hs₁⟩ := BlockRun.tracks_foldlM ⟨sent, hs⟩ hinit
  obtain ⟨hscript, hforward⟩ := hplain e (List.mem_append_right _ (List.mem_singleton_self e))
  rcases hs₁.step_standard hscript hstep with ⟨p, hs₂, _⟩ | ⟨hmay, _⟩
  · exact ⟨p, by rw [hs₂.previous, List.getLast?_concat]⟩
  · rw [hforward] at hmay
    cases hmay

section trunk
variable (h : c.node.Trims [part] c'.node) (hsees : c.Sees k c')
variable (htensor : ∀ id, c'.model.tensor? id = c.model.tensor? id) (hoptions : c'.options = c.options)
variable (hpadding : c'.outputPadding = .absent) (hin : ∀ x ∈ c.node.inputs, x ∉ c.node.outputs)
variable (hin' : ∀ x ∈ c'.node.inputs, x ∉ c'.node.outputs)
include h hsees htensor hoptions hpadding hin hin'

/-- Inside the block a converter does what it does without the part, where nothing is padded. -/
theorem Node.Trims.keeps {e : Element} (hserial : e.converter.Serial)
    (hignores : e.converter.Ignores part) : BlockRun.Keeps k c c' e.inner e := by
  refine ⟨rfl, fun s s' sent sent' hs => ?_⟩
  have hechoes : (s.here c e.inner).Echoes k e.converter.action (s'.here c' e) :=
    { tensor := fun id _ ht => (htensor id).trans ht
      options := hoptions
      weights := fun role hrole => h.weight?_eq (hignores.weights role (List.mem_append_right _ hrole))
      attributes := fun name hname =>
        h.attribute?_eq (hignores.attributes name (List.mem_append_right _ hname))
      outputShapes := h.outputShapes
      inputPadding := by
        show (if e.isFirst then c'.node.inputPadding else _) = if e.isFirst then c.node.inputPadding else _
        rw [h.inputPadding]
      border := by
        -- the element may be the last of its block without the part, but is to write no border there either
        show (if e.isLast then c'.outputPadding else _) = _
        rw [hpadding, ite_self]
        rfl
      inputs := fun hnil => h.inputs.symm.trans hnil
      input := (hsees.here hin hin' hs e.inner e).input 0 }
  rcases hserial.action with haction | hlocal
  · show Follows (e.converter.action.convert _).2 _ _
    rw [haction] at hechoes ⊢
    refine Context.Echoes.emits ?_
    show Follows (Context.convertCopy _ c.node.inputPadding) (Context.convertCopy _ c'.node.inputPadding) _
    rw [h.inputPadding]
    exact hechoes.convertCopy _
  · exact Action.convert_echoes hechoes hlocal

/-- The block without the part runs in lockstep with the block until the part, and both emit something. -/
theorem Node.Trims.run_trunk {trunk : Block} (hne : trunk ≠ [])
    (htrunk : ∀ cv ∈ trunk, cv.Serial ∧ cv.Ignores part) {s s' t : BlockRun} {sent sent' : List PlanNode}
    (hs : BlockRun.Paired k c c' s s' sent sent') (hnew : BlockRun.Numbered k c c' t.run.table.nextId)
    (hfold : ((Block.elements false trunk).map Element.inner).foldlM (BlockRun.step c) s = .ok t) :
    ∃ t' sent₁ sent₁' q, (Block.elements false trunk).foldlM (BlockRun.step c') s' = .ok t' ∧
      BlockRun.Paired k c c' t t' sent₁ sent₁' ∧ t.previous = some q := by
  have hmem (e : Element) (he : e ∈ Block.elements false trunk) :
      e.converter.Serial ∧ e.converter.Ignores part :=
    htrunk _ (elements_converters false trunk ▸ List.mem_map_of_mem he)
  have hkeeps : List.Forall₂ (BlockRun.Keeps k c c') ((Block.elements false trunk).map Element.inner)
      (Block.elements false trunk) := by
    rw [List.forall₂_map_left_iff]
    refine List.forall₂_same.mpr fun e he => ?_
    obtain ⟨hserial, hignores⟩ := hmem e he
    exact h.keeps hsees htensor hoptions hpadding hin hin' hserial hignores
  have hplain : ∀ e ∈ (Block.elements false trunk).map Element.inner,
      e.converter.action.isScript = false ∧ e.converter.action.mayForward = false := by
    intro e he
    obtain ⟨e', he', rfl⟩ := List.mem_map.mp he
    exact (hmem e' he').1.plain
  have hsome : (Block.elements false trunk).map Element.inner ≠ [] := by
    rw [ne_eq, List.map_eq_nil_iff]
    intro hnil
    have hconverters := elements_converters false trunk
    rw [hnil] at hconverters
    exact hne hconverters.symm
  obtain ⟨t', sent₁, sent₁', hfold', ht⟩ := hs.foldlM hkeeps hnew hfold
  obtain ⟨q, hq⟩ := BlockRun.exists_previous hs.left hsome hplain hfold
  exact ⟨t', sent₁, sent₁', q, hfold', ht, hq⟩

end trunk

end blocks

/-! ### Two nodes for one -/

/-- The plan node without the names of what it comes from. -/
def PlanNode.unnamed (q : PlanNode) : PlanNode := { q with group := "", converter := "" }

/-- A plan node stands for those that differ at most in what they come from. -/
def Correspondence.unnamed : Correspondence where
  number := id
  Pairs q q' := q'.unnamed = q.unnamed
  reads := by
    intro q q' h
    show (⟨q'.unnamed.id, q'.unnamed.primitive.output⟩ : Operand) = _
    rw [h]
    rfl

theorem Correspondence.unnamed_steady : Correspondence.unnamed.Steady := ⟨rfl, fun _ => rfl⟩

theorem Alongside.numbered {w : String} {c c' : Context} (h : Alongside .unnamed w c.table c'.table)
    {bound : Nat} : BlockRun.Numbered .unnamed c c' bound := by
  intro j name p _
  show PlanNode.mk (c'.table.nextId + j) "" "" (p.renumber id) = ⟨c.table.nextId + j, "", "", p⟩
  rw [h.nextId, Primitive.renumber_id]

/-- The node is the nodes `b` and `f` fused: `f` supplies the last part that the node carries and reads it off
the link `w`, and `b` is the node without it. -/
structure Node.Fuses (n : Node) (part : Part) (b f : Node) (w : String) : Prop where
  last : n.partsCarried.getLast? = some part
  trims : n.Trims [part] b
  link : b.outputs = [w]
  supplies : n.Supplies part f
  reads : f.inputs = [w]
  outputs : f.outputs = n.outputs

/-- Both runs stand before the last part: the block in the context `c` has emitted `sent`, and `b` has been
lowered to `sent'`. -/
structure Halfway (c : Context) (b : Node) (s : BlockRun) (t t' : Ownership) (sent sent' : List PlanNode)
    (owner owner' : PlanNode) : Prop where
  tracks : BlockRun.Tracks c s sent
  previous : s.previous = some owner
  lowered : Lowered t b t' sent' owner'
  sent : List.Forall₂ Correspondence.unnamed.Pairs sent sent'
  owner : Correspondence.unnamed.Pairs owner owner'

theorem BlockRun.Tracks.finish_concat {c : Context} {s : BlockRun} {sent : List PlanNode} {q : PlanNode}
    (hs : Tracks c s (sent ++ [q])) :
    s.finish c.node = .ok s.run ∧ Lowered c.table c.node s.run.table (sent ++ [q]) q := by
  have hfinish : s.finish c.node = .ok s.run := by
    unfold BlockRun.finish
    rw [hs.previous, List.getLast?_concat]
  obtain ⟨owner, hl, _⟩ := hs.finish hfinish
  rcases hl.source with hlast | ⟨hnil, _⟩
  · rw [List.getLast?_concat] at hlast
    cases hlast
    exact ⟨hfinish, hl⟩
  · simp at hnil

namespace Node.Fuses

variable {n b f : Node} {part : Part} {w : String} (h : n.Fuses part b f w)
include h

theorem partsCarried_eq : n.partsCarried = b.partsCarried ++ [part] := by
  obtain ⟨init, hinit⟩ := List.getLast?_eq_some_iff.mp h.last
  rw [h.trims.partsCarried_eq hinit, hinit]

theorem parts_ne_nil : n.kind.parts ≠ [] := by
  intro hnil
  have hparts := h.partsCarried_eq
  unfold partsCarried at hparts
  rw [hnil] at hparts
  simp at hparts

theorem carries : n.carries part = true := by
  have hmem : part ∈ n.partsCarried := by rw [h.partsCarried_eq]; simp
  exact (List.mem_filter.mp hmem).2

/-- The block of `b` is that of the node but for its last converter. -/
theorem exists_trunk {k : Correspondence} {c c' : Context} (hn : c.node = n) (hb : c'.node = b)
    (hsees : c.Sees k c') {block : Block}
    (happ : Block.applicable c (n.kind.stem ++ Part.block n.kind.parts) = .ok block) :
    ∃ trunk, block = trunk ++ [part.converter.asOptional] ∧
      Block.applicable c' (n.kind.stem ++ Part.block n.kind.parts) = .ok trunk ∧
      (∀ cv ∈ trunk, cv.Serial ∧ cv.Ignores part) ∧ ∃ cv ∈ trunk, cv.adapter = false := by
  subst hn hb
  obtain ⟨hblock, happ'⟩ := h.trims.applicable_eq hsees happ
  have hparts := h.partsCarried_eq
  refine ⟨_, ?_, happ', fun cv hcv => ?_, ?_⟩
  · rw [hblock, hparts, Part.block, List.map_append, List.append_assoc]
    rfl
  · rcases List.mem_append.mp hcv with hstem | hpart
    · have hmem := List.mem_of_mem_filter hstem
      exact ⟨stem_serial hmem, stem_ignores part hmem⟩
    · obtain ⟨other, hother, rfl⟩ := List.mem_map.mp hpart
      have hignores := part_ignores (ne_of_partsCarried hparts hother)
      exact ⟨part_serial other, hignores.weights, hignores.attributes⟩
  · obtain ⟨cv, hcv, hrequired, hcounts⟩ := exists_core h.parts_ne_nil
    have happlies := (applicable_eq_ok happ).2 cv (List.mem_append_left _ hcv) hrequired
    exact ⟨cv, List.mem_append_left _ (List.mem_filter.mpr ⟨hcv, happlies⟩), hcounts⟩

variable {o : Options} {m m' : Model} {paddings paddings' : Propagation} {r r₁ r' : Run}
variable (hreg : o.registry = .standard) (htensor : ∀ id, m'.tensor? id = m.tensor? id)
include hreg htensor

/-- The node `b` is lowered as the block of the node runs until the last part. -/
theorem lower_trunk (halong : Alongside .unnamed w r.table r'.table)
    (hin : ∀ x ∈ n.inputs, x ∉ n.outputs) (hw : w ∉ n.inputs)
    (hpadding : paddings'.outputPadding b.id = .absent)
    (hlower : r.lowerNode o m paddings n = .ok r₁) :
    ∃ s r₁' sent sent' owner owner',
      Halfway (r.context o m paddings n) b s r'.table r₁'.table sent sent' owner owner' ∧
      (s.step (r.context o m paddings n) ⟨part.converter.asOptional, false, true⟩ >>=
        fun t => t.finish n) = .ok r₁ ∧
      r'.lowerNode o m' paddings' b = .ok r₁' := by
  obtain ⟨listed, block, s₂, hlookup, happ, hfold, hfinish⟩ := lowerNode_eq_ok hlower
  rw [hreg, Registry.standard_stem h.parts_ne_nil] at hlookup
  cases hlookup
  have hsees : (r.context o m paddings n).Sees .unnamed (r'.context o m' paddings' b) := by
    refine ⟨?_, .none⟩
    show List.Forall₂ _ n.inputs b.inputs
    rw [h.trims.inputs]
    exact List.forall₂_same.mpr fun x hx => halong.owner x fun heq => hw (heq ▸ hx)
  have hin' : ∀ x ∈ b.inputs, x ∉ b.outputs := by
    intro x hx
    rw [h.trims.inputs] at hx
    rw [h.link, List.mem_singleton]
    rintro rfl
    exact hw hx
  obtain ⟨trunk, rfl, happ', htrunk, cv, hcv, hcounts⟩ := h.exists_trunk rfl rfl hsees happ
  -- the converter of the part is the last of the block, and not its first
  have hany : trunk.any (fun cv => !cv.adapter) = true :=
    List.any_eq_true.mpr ⟨cv, hcv, by rw [hcounts]; rfl⟩
  rw [elements_concat_eq false trunk part.converter.asOptional (part_counts part), hany] at hfold
  obtain ⟨s, _, hinner, hstep, hnil⟩ := foldlM_append_cons_eq_ok hfold
  cases hnil
  have hstart : BlockRun.Paired .unnamed (r.context o m paddings n) (r'.context o m' paddings' b)
      { run := r } { run := r' } [] [] :=
    ⟨BlockRun.tracks_start rfl, BlockRun.tracks_start rfl, .nil, .none⟩
  obtain ⟨s', sent, sent', q, hfold', hpaired, hq⟩ := h.trims.run_trunk hsees htensor rfl hpadding hin hin'
    (List.ne_nil_of_mem hcv) htrunk hstart halong.numbered hinner
  have hdone : s.finish n = .ok s.run := by
    unfold BlockRun.finish
    rw [hq]
  obtain ⟨r₁', owner, owner', hfinish', hl, hl', howner⟩ := hpaired.finish hdone
  have hkind : b.kind = n.kind := h.trims.kind
  have hprevious : s.previous = some owner := by
    rcases hl.source with hlast | ⟨hnil, _⟩
    · rw [hpaired.left.previous, hlast]
    · rw [hpaired.left.previous, hnil] at hq
      cases hq
  refine ⟨s, r₁', sent, sent', owner, owner', ⟨hpaired.left, hprevious, hl', hpaired.sent, howner⟩,
    bind_eq_ok_iff.mpr ⟨s₂, hstep, hfinish⟩, ?_⟩
  refine exists_lowerNode ?_ happ' hfold' hfinish'
  rw [hreg, hkind, Registry.standard_stem h.parts_ne_nil]

omit hreg in
/-- The node `f` gets the answers that the converter of the part gets in the block. -/
theorem echoes {s : BlockRun} {t : Ownership} {sent sent' : List PlanNode} {owner owner' : PlanNode}
    (hhalf : Halfway (r.context o m paddings n) b s t r'.table sent sent' owner owner')
    (hpadding : paddings'.outputPadding f.id = paddings.outputPadding n.id) :
    (s.here (r.context o m paddings n) ⟨part.converter.asOptional, false, true⟩).Echoes .unnamed
      part.converter.action
      (({ run := r' } : BlockRun).here (r'.context o m' paddings' f) ⟨part.converter, true, true⟩) where
  tensor := fun id _ ht => (htensor id).trans ht
  options := rfl
  weights := h.supplies.weights
  attributes := h.supplies.attributes
  outputShapes := h.supplies.outputShapes
  inputPadding := h.supplies.inputPadding
  border := hpadding
  inputs hnil := by
    have hreads := h.reads.symm.trans hnil
    cases hreads
  input := by
    have howner : r'.table.owner? w = some owner' := by
      rw [hhalf.lowered.owner_eq, if_pos (by rw [h.link]; exact List.mem_singleton_self w)]
    have hproducer := Context.producer_eq_ok (({ run := r' } : BlockRun).here (r'.context o m' paddings' f)
      ⟨part.converter, true, true⟩) (i := 0) (congrArg (fun inputs => inputs[0]?) h.reads) howner
    have hinput : Context.input (({ run := r' } : BlockRun).here (r'.context o m' paddings' f)
        ⟨part.converter, true, true⟩) 0 = .ok owner'.asOperand := bind_eq_ok_iff.mpr ⟨owner', hproducer, rfl⟩
    have hprevious : Context.input (s.here (r.context o m paddings n)
        ⟨part.converter.asOptional, false, true⟩) 0 = .ok owner.asOperand := by
      rw [Context.input_eq, if_pos rfl, show (s.here _ _).previous = some owner from hhalf.previous]
    -- the block goes on from its last plan node, and `f` reads the one that owns the link
    rw [hinput, hprevious]
    exact .ok (Correspondence.unnamed.reads hhalf.owner)

/-- The node `f` is lowered to what the converter of the part emits in the block. -/
theorem lower_part {s : BlockRun} {t : Ownership} {sent sent' : List PlanNode} {owner owner' : PlanNode}
    (hhalf : Halfway (r.context o m paddings n) b s t r'.table sent sent' owner owner')
    (hnext : r'.table.nextId = s.run.table.nextId)
    (hpadding : paddings'.outputPadding f.id = paddings.outputPadding n.id)
    (hrun : (s.step (r.context o m paddings n) ⟨part.converter.asOptional, false, true⟩ >>=
      fun t => t.finish n) = .ok r₁) :
    ∃ r₂ q q', r'.lowerNode o m' paddings' f = .ok r₂ ∧ Lowered r.table n r₁.table (sent ++ [q]) q ∧
      Lowered r'.table f r₂.table [q'] q' ∧ Correspondence.unnamed.Pairs q q' := by
  obtain ⟨t₁, hstep, hfinish⟩ := bind_eq_ok_iff.mp hrun
  have hcarries : f.carries part = true := h.supplies.carries_eq.trans h.carries
  obtain ⟨hscript, hforward⟩ := (part_serial part).plain
  have hlocal : part.converter.action.isLocal = true := by cases part <;> rfl
  obtain ⟨outcome, hok, _, hcases⟩ := BlockRun.step_eq_ok hstep
  obtain ⟨outcome', hok', hmatch⟩ :=
    Action.convert_echoes (h.echoes htensor hhalf hpadding) hlocal outcome hok
  obtain ⟨t₁', hstep'⟩ := BlockRun.exists_step (e := ⟨part.converter, true, true⟩) hok'
  obtain ⟨outcome₁, hok₁, _, hcases'⟩ := BlockRun.step_eq_ok hstep'
  cases hok'.symm.trans hok₁
  rcases (Action.convert_ends _ _ hscript).result hok with ⟨p, rfl, _⟩ | ⟨hmay, _⟩
  · obtain ⟨_, hemit, htable, hprevious⟩ := hcases.resolve_left fun hsilent => nomatch hsilent.1
    cases hemit
    obtain ⟨_, hemit', htable', hprevious'⟩ :=
      hcases'.resolve_left fun hsilent => nomatch hmatch.emit.symm.trans hsilent.1
    cases hmatch.emit.symm.trans hemit'
    obtain ⟨hdone, hl⟩ := (hhalf.tracks.emit htable hprevious).finish_concat
    cases hdone.symm.trans hfinish
    have htracks' : BlockRun.Tracks (r'.context o m' paddings' f) t₁' ([] ++ [_]) :=
      (BlockRun.tracks_start rfl).emit htable' hprevious'
    obtain ⟨hdone', hl'⟩ := htracks'.finish_concat
    refine ⟨t₁'.run, _, _, ?_, hl, hl', ?_⟩
    · rw [lowerNode_single ?_ (applicable_part hcarries) (part_counts part), hstep']
      · exact hdone'
      · rw [hreg, h.supplies.kind, Registry.standard_part]
    · show PlanNode.mk r'.table.nextId "" "" (p.renumber _) = ⟨s.run.table.nextId, "", "", p⟩
      rw [hnext]
      exact congrArg _ (Primitive.renumber_id p)
  · rw [show part.converter.asOptional.action.mayForward = false from hforward] at hmay
    cases hmay

/-- The two nodes are lowered to what the node is lowered to. -/
theorem lower_apart (halong : Alongside .unnamed w r.table r'.table)
    (hin : ∀ x ∈ n.inputs, x ∉ n.outputs) (hw : w ∉ n.inputs)
    (hpadding_b : paddings'.outputPadding b.id = .absent)
    (hpadding_f : paddings'.outputPadding f.id = paddings.outputPadding n.id)
    (hlower : r.lowerNode o m paddings n = .ok r₁) :
    ∃ r₁' r₂', r'.lowerNode o m' paddings' b = .ok r₁' ∧ r₁'.lowerNode o m' paddings' f = .ok r₂' ∧
      Alongside .unnamed w r₁.table r₂'.table := by
  obtain ⟨s, r₁', sent, sent', owner, owner', hhalf, hrun, hlower_b⟩ :=
    h.lower_trunk hreg htensor halong hin hw hpadding_b hlower
  have hnext : r₁'.table.nextId = s.run.table.nextId := by
    rw [hhalf.lowered.nextId, hhalf.tracks.nextId, halong.nextId, hhalf.sent.length_eq]
    rfl
  obtain ⟨r₂', q, q', hlower_f, hl, hl', hq⟩ := h.lower_part hreg htensor hhalf hnext hpadding_f hrun
  refine ⟨r₁', r₂', hlower_b, hlower_f, ?_, fun x hx => ?_⟩
  · rw [hl.nodes, hl'.nodes, hhalf.lowered.nodes, List.append_assoc]
    exact List.rel_append halong.nodes (List.rel_append hhalf.sent (.cons hq .nil))
  · have hlink : x ∉ b.outputs := by rw [h.link]; simpa using hx
    rw [hl.owner_eq, hl'.owner_eq, h.outputs, hhalf.lowered.owner_eq, if_neg hlink]
    split
    · exact .some hq
    · exact halong.owner x hx

end Node.Fuses

end NetLowering
