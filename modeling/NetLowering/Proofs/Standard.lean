import NetLowering.Proofs.Run

/-! # The standard blocks

With the standard registry a node either comes to nothing, and its outputs stay with the owner of its
first input, or it emits one plan node for each converter that applies: the first reads the owners of
the node's inputs, each of the others reads the one before, and the last writes the border that the
readers of the node expect. This is `lowerNode_standard`. It is put together from what a standard block
looks like (`standardBlock_form`), which of its converters apply (`applicable_eq_ok`), and what a
sequence of ordinary converters does (`BlockRun.emits_foldlM`). -/

namespace NetLowering

/-! ### Converters that apply -/

namespace Converter

/-- Whether the node has what the converter requires, and the condition of the converter holds. -/
def applies (cv : Converter) (c : Context) : Bool :=
  (cv.lackingWeight? c.node).isNone && (cv.lackingAttribute? c.node).isNone &&
    cv.condition.all fun condition => condition.holds c

/-- Whether a block with the converter cannot do without it. -/
def isRequired (cv : Converter) : Bool := !cv.optional && cv.condition.isNone

theorem canConvert_eq_ok {cv : Converter} {n : Node} {able : Bool} (h : cv.canConvert n = .ok able) :
    able = ((cv.lackingWeight? n).isNone && (cv.lackingAttribute? n).isNone) ∧
      (cv.optional = false → able = true) := by
  unfold canConvert at h
  split at h
  · rename_i hweight
    split at h
    · rename_i hopt
      cases h
      simp [hweight, hopt]
    · cases h
  · rename_i hweight hattribute
    split at h
    · rename_i hopt
      cases h
      simp [hattribute, hopt]
    · cases h
  · rename_i hweight hattribute
    cases h
    simp [hweight, hattribute]

theorem canConvert_of_optional {cv : Converter} {n : Node}
    (h : cv.optional = true ∨ cv.lackingWeight? n = none ∧ cv.lackingAttribute? n = none) :
    cv.canConvert n = .ok ((cv.lackingWeight? n).isNone && (cv.lackingAttribute? n).isNone) := by
  unfold canConvert
  rcases h with hopt | ⟨hweight, hattribute⟩
  · cases hweight : cv.lackingWeight? n with
    | some role => simp [hopt]
    | none =>
        cases hattribute : cv.lackingAttribute? n with
        | some name => simp [hopt]
        | none => rfl
  · rw [hweight, hattribute]
    rfl

end Converter

section applicable
variable {c : Context} {block applied : Block}

/-- The applicable converters of a block are those that apply, the required ones among them. -/
theorem applicable_eq_ok (h : Block.applicable c block = .ok applied) :
    applied = block.filter (fun cv => cv.applies c) ∧
      ∀ cv ∈ block, cv.isRequired = true → cv.applies c = true := by
  induction block generalizing applied with
  | nil => cases h; simp
  | cons cv rest ih =>
      unfold Block.applicable at h
      obtain ⟨able, hable, h⟩ := bind_eq_ok_iff.mp h
      obtain ⟨others, hothers, h⟩ := bind_eq_ok_iff.mp h
      obtain ⟨hrest, hrequired⟩ := ih hothers
      obtain ⟨hlack, hmust⟩ := Converter.canConvert_eq_ok hable
      have happlies : cv.applies c = (able && cv.condition.all fun k => k.holds c) := by
        rw [Converter.applies, hlack]
      refine ⟨?_, ?_⟩
      · cases h
        rw [List.filter_cons, happlies, hrest]
      · intro cv' hmem hreq
        rcases List.mem_cons.mp hmem with rfl | hmem
        · unfold Converter.isRequired at hreq
          rw [Bool.and_eq_true, Bool.not_eq_true', Option.isNone_iff_eq_none] at hreq
          rw [happlies, hmust hreq.1, hreq.2]
          rfl
        · exact hrequired cv' hmem hreq

/-- Conversely, a block whose converters are optional or lack nothing is cut down to those that apply. -/
theorem applicable_eq_filter (h : ∀ cv ∈ block, cv.optional = true ∨
    cv.lackingWeight? c.node = none ∧ cv.lackingAttribute? c.node = none) :
    Block.applicable c block = .ok (block.filter fun cv => cv.applies c) := by
  induction block with
  | nil => rfl
  | cons cv rest ih =>
      unfold Block.applicable
      rw [Converter.canConvert_of_optional (h cv List.mem_cons_self),
        ih fun cv' hcv' => h cv' (List.mem_cons_of_mem _ hcv'), List.filter_cons]
      rfl

end applicable

/-! ### What a node reads and writes -/

/-- How many of its inputs a node of a standard kind reads. -/
def OpKind.readCount (kind : OpKind) (inputs : Nat) : Nat :=
  match kind with
  | .input | .constant => 0
  | .plus | .subtract | .elementwiseMul => 2
  | .splice => inputs
  | _ => 1

def Node.inputsRead (n : Node) : List String := n.inputs.take (n.kind.readCount n.inputs.length)

/-- The border that a node of a standard kind writes if its readers expect `expected`: an input of the
model is only copied for a border that is not empty. -/
def Node.borderWritten (n : Node) (expected : Padding) : Padding :=
  if n.kind = .input ∧ ¬ 0 < expected.size then .absent else expected

/-- Whether an action moves data at the edge of a block, with a border that does not depend on its
place. -/
def Action.isEdge : Action → Bool
  | .input | .outputReorder | .inputReorder => true
  | _ => false

theorem Action.border_of_isLast {a : Action} (ha : a.isEdge = false) (c : Context) :
    a.border { c with isLast := true } = c.outputPadding := by
  cases a with
  | input | outputReorder | inputReorder => cases ha
  | constant => exact ite_self _
  | _ => rfl

/-! ### The standard blocks -/

namespace Registry

/-- A converter that is a block of its own. It may come to nothing, if its kind is transparent or the
reshape would change nothing. -/
structure Sole (kind : OpKind) (cv : Converter) : Prop where
  required : cv.isRequired = true
  counts : cv.adapter = false
  script : cv.action.isScript = false
  edge : cv.action.isEdge = false
  kind_ne : kind ≠ .input
  reads : ∀ n, cv.action.reads n = (List.range (kind.readCount n.inputs.length)).map Int.ofNat
  forward : cv.action.mayForward = true → kind.isTransparent = true ∨ cv.action = .reshape

/-- Converters that go on from one another, after those that adapt the input. -/
structure Chain (kind : OpKind) (adapters core : Block) : Prop where
  required : ∃ cv ∈ core, cv.isRequired = true
  counts : ∀ cv ∈ core, cv.adapter = false ∧ cv.action.isEdge = false
  plain : ∀ cv ∈ adapters ++ core, cv.action.isScript = false ∧ cv.action.mayForward = false
  kind_ne : kind ≠ .input
  one : ∀ inputs, kind.readCount inputs = 1
  reads : ∀ cv ∈ adapters ++ core, ∀ n, cv.action.reads n = [0]

/-- What the block of a kind looks like in the standard registry. -/
inductive StandardForm : OpKind → Block → Prop where
  | input : StandardForm .input [input, outputReorder]
  | sole {kind : OpKind} {cv : Converter} : Sole kind cv → StandardForm kind [cv]
  | chain {kind : OpKind} {adapters core : Block} :
      Chain kind adapters core → StandardForm kind (adapters ++ core)

theorem standardBlock_form {kind : OpKind} (h : standardBlock kind ≠ []) :
    StandardForm kind (standardBlock kind) := by
  cases kind
  case invalid | skip | gru | lstm | region | vad | unlisted => exact absurd rfl h
  case input => exact .input
  case convolution | binaryConvolution =>
    refine .chain (⟨⟨_, List.mem_cons_self, rfl⟩, by decide, by decide, by decide, fun _ => rfl,
      fun cv hcv n => ?_⟩ : Chain _ [inputReorder] [_, bias.asOptional, activation.asOptional])
    simp only [List.cons_append, List.nil_append, List.mem_cons, List.not_mem_nil, or_false] at hcv
    rcases hcv with rfl | rfl | rfl | rfl <;> rfl
  case fullyConnected | batchNormalization =>
    refine .chain (⟨⟨_, List.mem_cons_self, rfl⟩, by decide, by decide, by decide, fun _ => rfl,
      fun cv hcv n => ?_⟩ : Chain _ [] [_, _, _])
    simp only [List.nil_append, List.mem_cons, List.not_mem_nil, or_false] at hcv
    rcases hcv with rfl | rfl | rfl <;> rfl
  case splice | passthrough =>
    exact .sole ⟨rfl, rfl, rfl, rfl, by decide, fun _ => rfl, fun _ => .inl rfl⟩
  case reshape => exact .sole ⟨rfl, rfl, rfl, rfl, by decide, fun _ => rfl, fun _ => .inr rfl⟩
  all_goals exact .sole ⟨rfl, rfl, rfl, rfl, by decide, fun _ => rfl, fun h => Bool.noConfusion h⟩

theorem lookup_standard_eq {kind : OpKind} {listed : Block} (h : standard.lookup kind = .ok listed) :
    listed = standardBlock kind ∧ listed ≠ [] := by
  have hvalue : ∀ kinds : List OpKind, ∀ block : Block,
      (kinds.map fun k => (k, standardBlock k)).lookup kind = some block → block = standardBlock kind := by
    intro kinds block hblock
    obtain ⟨_, _, hsplit, _⟩ := List.lookup_eq_some_iff.mp hblock
    have hmem : (kind, block) ∈ kinds.map fun k => (k, standardBlock k) := by
      rw [hsplit]; simp
    obtain ⟨k, _, hk⟩ := List.mem_map.mp hmem
    cases hk
    rfl
  unfold lookup at h
  split at h
  · rename_i cv rest hblock
    cases h
    exact ⟨hvalue _ _ hblock, List.cons_ne_nil _ _⟩
  · cases h

theorem lookup_standard {kind : OpKind} {listed : Block} (h : standard.lookup kind = .ok listed) :
    StandardForm kind listed := by
  obtain ⟨rfl, hne⟩ := lookup_standard_eq h
  exact standardBlock_form hne

end Registry

/-! ### Places in a block -/

theorem elements_converters (begun : Bool) (block : Block) :
    (Block.elements begun block).map Element.converter = block := by
  induction block generalizing begun with
  | nil => rfl
  | cons cv rest ih => rw [Block.elements, List.map_cons, ih]

theorem elements_concat (begun : Bool) (init : Block) (cv : Converter) :
    ∃ before first, Block.elements begun (init ++ [cv]) = before ++ [⟨cv, first, !cv.adapter⟩] := by
  induction init generalizing begun with
  | nil => exact ⟨[], !begun && !cv.adapter, by simp [Block.elements]⟩
  | cons other rest ih =>
      obtain ⟨before, first, h⟩ := ih (begun || !other.adapter)
      rw [List.cons_append, Block.elements, h]
      exact ⟨_ :: before, first, rfl⟩

/-! ### Ordinary converters -/

/-- The plan node is the only operand of the other. -/
def PlanNode.Feeds (p q : PlanNode) : Prop := q.primitive.operands.map Operand.source = [p.id]

/-- The operand is the owner of the value. -/
def Ownership.Holds (t : Ownership) (x : String) (o : Operand) : Prop :=
  ∃ q, t.owner? x = some q ∧ o.source = q.id

/-- The border an element of a block writes when it emits something. -/
def Element.border (e : Element) (c : Context) : Padding :=
  e.converter.action.border { c with isLast := e.isLast }

namespace BlockRun

variable {c : Context} {s s' : BlockRun} {e : Element} {sent : List PlanNode}

theorem border_here (a : Action) : a.border (s.here c e) = a.border { c with isLast := e.isLast } := by
  cases a <;> rfl

theorem feeds_of_reads {q p : PlanNode} (hprev : s.previous = some q)
    (h : List.Forall₂ (s.here c e).Reads [0] p.primitive.operands) : q.Feeds p := by
  unfold PlanNode.Feeds
  cases hops : p.primitive.operands with
  | nil => rw [hops] at h; cases h
  | cons o rest =>
      rw [hops] at h
      obtain ⟨⟨given, hgiven, hsource⟩, hnil⟩ := List.forall₂_cons.mp h
      rw [List.forall₂_nil_left_iff.mp hnil, List.map_singleton, hsource]
      rw [Context.input_eq, if_pos rfl] at hgiven
      rw [show (s.here c e).previous = some q from hprev] at hgiven
      cases hgiven
      rfl

theorem holds_of_reads (hs : Tracks c s []) {k : Nat} {operands : List Operand}
    (h : List.Forall₂ (s.here c e).Reads ((List.range k).map Int.ofNat) operands) :
    List.Forall₂ c.table.Holds (c.node.inputs.take k) operands := by
  rw [List.forall₂_map_left_iff] at h
  refine forall₂_take (h.imp fun i o hi => ?_)
  obtain ⟨given, hgiven, hsource⟩ := hi
  rcases (Context.input_ends _ _).result hgiven with ⟨_, p, hp, _⟩ | ⟨_, p, hp, rfl⟩
  · rw [show (s.here c e).previous = s.previous from rfl, hs.previous] at hp
    cases hp
  · obtain ⟨j, x, hj, hx, howner⟩ := (Context.producer_ends _ _).result hp
    cases hj
    exact ⟨x, hx, p, (hs.owner_of_nil x).symm.trans howner, hsource⟩

/-- A standard converter emits one plan node, or leaves the node with the owner of its first input. -/
theorem Tracks.step_standard (hs : Tracks c s sent) (hscript : e.converter.action.isScript = false)
    (h : s.step c e = .ok s') :
    (∃ p, Tracks c s' (sent ++ [p]) ∧ p.primitive.output.padding = e.border c ∧
      List.Forall₂ (s.here c e).Reads (e.converter.action.reads c.node) p.primitive.operands) ∨
    (e.converter.action.mayForward = true ∧ Tracks c s' sent ∧ ∃ q, s'.forwarded = some q ∧
      (s.here c e).producer 0 = .ok q ∧ (e.converter.action = .reshape → s.previous = none →
        q.primitive.output.padding = (s.here c e).border)) := by
  obtain ⟨outcome, hconv, hforward, hcases⟩ := step_eq_ok h
  have hends := (Action.convert_ends _ _ hscript).result hconv
  rcases hends with ⟨p, rfl, hbuilt⟩ | ⟨hmay, q, rfl, hq, hreshape⟩
  · rcases hcases with ⟨hemit, _⟩ | ⟨p', hemit, htable, hprev⟩
    · cases hemit
    · cases hemit
      refine .inl ⟨_, hs.emit htable hprev, ?_, hbuilt.operands⟩
      exact hbuilt.border.trans (border_here _)
  · rcases hcases with ⟨_, htable, hprev⟩ | ⟨p', hemit, _⟩
    · have hsound := (Action.convert_sound _ _).result hconv
      exact .inr ⟨hmay, hs.silent hsound htable hprev hforward, q, hforward, hq, hreshape⟩
    · cases hemit

/-- Converters that read what came before emit a chain. -/
theorem emits_foldlM {elements : List Element} {q : PlanNode} (hs : Tracks c s (sent ++ [q]))
    (hplain : ∀ e ∈ elements, e.converter.action.isScript = false ∧
      e.converter.action.mayForward = false)
    (hreads : ∀ e ∈ elements, e.converter.action.reads c.node = [0])
    (h : elements.foldlM (BlockRun.step c) s = .ok s') :
    ∃ more, Tracks c s' (sent ++ q :: more) ∧ (q :: more).IsChain PlanNode.Feeds ∧
      List.Forall₂ (fun e p => p.primitive.output.padding = e.border c) elements more := by
  induction elements generalizing s sent q with
  | nil =>
      cases h
      exact ⟨[], hs, .singleton q, .nil⟩
  | cons e rest ih =>
      rw [List.foldlM_cons, bind_eq_ok_iff] at h
      obtain ⟨s₁, hstep, h⟩ := h
      obtain ⟨hscript, hforward⟩ := hplain e List.mem_cons_self
      rcases hs.step_standard hscript hstep with ⟨p, hs₁, hborder, hops⟩ | ⟨hmay, _⟩
      · rw [hreads e List.mem_cons_self] at hops
        have hfeeds : q.Feeds p := feeds_of_reads (by rw [hs.previous, List.getLast?_concat]) hops
        obtain ⟨more, hs', hchain, hborders⟩ := ih hs₁
          (fun e' he' => hplain e' (List.mem_cons_of_mem _ he'))
          (fun e' he' => hreads e' (List.mem_cons_of_mem _ he')) h
        refine ⟨p :: more, ?_, .cons_cons hfeeds hchain, .cons hborder hborders⟩
        rw [List.append_assoc] at hs'
        exact hs'
      · rw [hforward] at hmay
        cases hmay

end BlockRun

/-! ### Blocks that emit for every converter -/

/-- Every converter of the block emits a plan node: the first reads the inputs of the node, the others
read what came before, and the last writes the border of the node. -/
structure Block.Regular (c : Context) (block : Block) : Prop where
  plain : ∀ cv ∈ block, cv.action.isScript = false ∧ cv.action.mayForward = false
  head : ∀ cv ∈ block.head?, cv.action.reads c.node =
    (List.range (c.node.kind.readCount c.node.inputs.length)).map Int.ofNat
  tail : ∀ cv ∈ block.tail, cv.action.reads c.node = [0]
  last : ∃ init cv, block = init ++ [cv] ∧
    cv.action.border { c with isLast := !cv.adapter } = c.node.borderWritten c.outputPadding

/-- The node emitted the plan nodes `sent` for readers that expect a border, and the last of them owns
its outputs. -/
structure Expanded (t : Ownership) (n : Node) (expected : Padding) (sent : List PlanNode)
    (owner : PlanNode) : Prop where
  first : ∀ p ∈ sent.head?, List.Forall₂ t.Holds n.inputsRead p.primitive.operands
  chain : sent.IsChain PlanNode.Feeds
  last : sent.getLast? = some owner
  border : owner.primitive.output.padding = n.borderWritten expected

/-- The node emitted nothing, and the owner of its first input owns its outputs. -/
structure Elided (t : Ownership) (n : Node) (expected : Padding) (owner : PlanNode) : Prop where
  first : ∃ x, n.inputs.head? = some x ∧ t.owner? x = some owner
  border : n.kind.isTransparent = true ∨ owner.primitive.output.padding = expected

/-- A block that is through has emitted plan nodes for its node, or found the owner to leave it to. -/
def BlockRun.Settled (c : Context) (s : BlockRun) : Prop :=
  (∃ sent owner, Tracks c s sent ∧ Expanded c.table c.node c.outputPadding sent owner) ∨
    Tracks c s [] ∧ ∃ q, s.forwarded = some q ∧ Elided c.table c.node c.outputPadding q

section forms
variable {c : Context} {block applied : Block}

theorem Node.borderWritten_of_ne {n : Node} (h : n.kind ≠ .input) (expected : Padding) :
    n.borderWritten expected = expected := if_neg fun hn => h hn.1

theorem outputReorder_applies :
    Registry.outputReorder.applies c = decide (0 < c.outputPadding.size) := rfl

/-- An input of the model is only copied for a border that is not empty. -/
theorem regular_input (hkind : c.node.kind = .input)
    (h : Block.applicable c [Registry.input, Registry.outputReorder] = .ok applied) :
    Block.Regular c applied := by
  obtain ⟨hfilter, hrequired⟩ := applicable_eq_ok h
  rw [List.filter_cons, if_pos (hrequired _ List.mem_cons_self rfl), List.filter_singleton,
    outputReorder_applies, Bool.cond_decide] at hfilter
  have hhead : Action.input.reads c.node =
      (List.range (c.node.kind.readCount c.node.inputs.length)).map Int.ofNat := by rw [hkind]; rfl
  by_cases hsize : 0 < c.outputPadding.size
  · rw [if_pos hsize] at hfilter
    rw [hfilter]
    refine ⟨by decide, fun cv hcv => ?_, fun cv hcv => ?_, [Registry.input], _, rfl, ?_⟩
    · cases hcv; exact hhead
    · cases List.mem_singleton.mp hcv; rfl
    · rw [Node.borderWritten, if_neg fun hn => hn.2 hsize]
      rfl
  · rw [if_neg hsize] at hfilter
    rw [hfilter]
    refine ⟨by decide, fun cv hcv => ?_, fun cv hcv => ?_, [], _, rfl, ?_⟩
    · cases hcv; exact hhead
    · cases hcv
    · rw [Node.borderWritten, if_pos ⟨hkind, hsize⟩]
      rfl

/-- In a chain the last converter that applies is not an adapter, since one of the core is required. -/
theorem regular_chain {adapters core : Block} (hc : Registry.Chain c.node.kind adapters core)
    (h : Block.applicable c (adapters ++ core) = .ok applied) : Block.Regular c applied := by
  obtain ⟨rfl, hrequired⟩ := applicable_eq_ok h
  have hmem (cv : Converter) (hcv : cv ∈ (adapters ++ core).filter fun cv => cv.applies c) :
      cv ∈ adapters ++ core := List.mem_of_mem_filter hcv
  refine ⟨fun cv hcv => hc.plain cv (hmem cv hcv), fun cv hcv => ?_, fun cv hcv => ?_, ?_⟩
  · rw [hc.one, hc.reads cv (hmem cv (List.mem_of_mem_head? hcv))]
    rfl
  · exact hc.reads cv (hmem cv (List.mem_of_mem_tail hcv)) _
  · obtain ⟨main, hmain, hreq⟩ := hc.required
    have happlies := hrequired main (List.mem_append_right _ hmain) hreq
    have hne : core.filter (fun cv => cv.applies c) ≠ [] :=
      List.ne_nil_of_mem (List.mem_filter.mpr ⟨hmain, happlies⟩)
    refine ⟨adapters.filter (fun cv => cv.applies c) ++ (core.filter fun cv => cv.applies c).dropLast,
      (core.filter fun cv => cv.applies c).getLast hne, ?_, ?_⟩
    · rw [List.filter_append, List.append_assoc, List.dropLast_append_getLast]
    · obtain ⟨hadapter, hedge⟩ := hc.counts _ (List.mem_of_mem_filter (List.getLast_mem hne))
      rw [hadapter, Node.borderWritten_of_ne hc.kind_ne]
      exact Action.border_of_isLast hedge c

variable {s s' : BlockRun}

theorem Block.Regular.expands (hb : Block.Regular c block) (hs : BlockRun.Tracks c s [])
    (h : (Block.elements false block).foldlM (BlockRun.step c) s = .ok s') :
    ∃ sent owner, BlockRun.Tracks c s' sent ∧
      Expanded c.table c.node c.outputPadding sent owner := by
  obtain ⟨init, last, hlast, hborder⟩ := hb.last
  obtain ⟨before, first, helements⟩ := elements_concat false init last
  rw [← hlast] at helements
  cases block with
  | nil => simp at hlast
  | cons cv rest =>
      have hconverters := elements_converters (false || !cv.adapter) rest
      have hplain (e : Element) (he : e ∈ Block.elements (false || !cv.adapter) rest) :
          e.converter ∈ rest := hconverters ▸ List.mem_map_of_mem he
      rw [Block.elements] at h helements
      rw [List.foldlM_cons, bind_eq_ok_iff] at h
      obtain ⟨s₁, hstep, h⟩ := h
      obtain ⟨hscript, hforward⟩ := hb.plain cv List.mem_cons_self
      rcases hs.step_standard hscript hstep with ⟨p, hs₁, hpadding, hops⟩ | ⟨hmay, _⟩
      · rw [hb.head cv rfl] at hops
        -- the other converters go on from `p`, the last of them in the last place of the block
        obtain ⟨more, hs', hchain, hborders⟩ := BlockRun.emits_foldlM hs₁
          (fun e he => hb.plain _ (List.mem_cons_of_mem _ (hplain e he)))
          (fun e he => hb.tail _ (hplain e he)) h
        have hall : List.Forall₂ (fun (e : Element) (p : PlanNode) =>
            p.primitive.output.padding = e.border c) _ (p :: more) := .cons hpadding hborders
        rw [helements] at hall
        obtain ⟨_, owner, hsent, _, hwrites⟩ := forall₂_concat hall
        have howner : (p :: more).getLast? = some owner := by rw [hsent, List.getLast?_concat]
        refine ⟨p :: more, owner, hs', fun p' hp' => ?_, hchain, howner, hwrites.trans hborder⟩
        cases hp'
        exact BlockRun.holds_of_reads hs hops
      · rw [hforward] at hmay
        cases hmay

/-- A single converter emits a plan node or leaves the node to the owner of its first input. -/
theorem sole_settled {cv : Converter} (hcv : Registry.Sole c.node.kind cv)
    (hs : BlockRun.Tracks c s [])
    (h : (Block.elements false [cv]).foldlM (BlockRun.step c) s = .ok s') : s'.Settled c := by
  have helements : Block.elements false [cv] = [⟨cv, true, true⟩] := by
    simp [Block.elements, hcv.counts]
  rw [helements, List.foldlM_cons, bind_eq_ok_iff] at h
  obtain ⟨s₁, hstep, h⟩ := h
  cases h
  rcases hs.step_standard hcv.script hstep with ⟨p, hs', hpadding, hops⟩ | ⟨hmay, hs', q, hq,
    hproducer, hreshape⟩
  · rw [hcv.reads] at hops
    refine .inl ⟨[p], p, hs', fun p' hp' => ?_, .singleton p, rfl, ?_⟩
    · cases hp'
      exact BlockRun.holds_of_reads hs hops
    · rw [hpadding, Node.borderWritten_of_ne hcv.kind_ne]
      exact Action.border_of_isLast hcv.edge c
  · obtain ⟨i, x, hi, hx, howner⟩ := (Context.producer_ends _ _).result hproducer
    cases hi
    refine .inr ⟨hs', q, hq, ⟨x, ?_, (hs.owner_of_nil x).symm.trans howner⟩, ?_⟩
    · rw [List.head?_eq_getElem?]
      exact hx
    · rcases hcv.forward hmay with htransparent | haction
      · exact .inl htransparent
      · exact .inr (hreshape haction hs.previous)

theorem standard_settled {listed : Block}
    (hform : Registry.StandardForm c.node.kind listed)
    (happ : Block.applicable c listed = .ok applied) (hs : BlockRun.Tracks c s [])
    (h : (Block.elements false applied).foldlM (BlockRun.step c) s = .ok s') : s'.Settled c := by
  generalize hkind : c.node.kind = kind at hform
  cases hform with
  | input => exact .inl ((regular_input hkind happ).expands hs h)
  | sole hcv =>
      subst hkind
      obtain ⟨rfl, hrequired⟩ := applicable_eq_ok happ
      rw [List.filter_singleton, hrequired _ (List.mem_singleton_self _) hcv.required] at h
      exact sole_settled hcv hs h
  | chain hchain =>
      subst hkind
      exact .inl ((regular_chain hchain happ).expands hs h)

end forms

/-! ### Nodes -/

section nodes
variable {o : Options} {m : Model} {paddings : Propagation} {r r' : Run} {n : Node}

/-- Lowering a node with the standard registry. -/
theorem lowerNode_standard (hreg : o.registry = .standard) (h : r.lowerNode o m paddings n = .ok r') :
    ∃ sent owner, Lowered r.table n r'.table sent owner ∧
      (Expanded r.table n (paddings.outputPadding n.id) sent owner ∨
        sent = [] ∧ Elided r.table n (paddings.outputPadding n.id) owner) := by
  obtain ⟨listed, applied, s, hlookup, happ, hfold, hfinish⟩ := lowerNode_eq_ok h
  rw [hreg] at hlookup
  have hform := Registry.lookup_standard hlookup
  rcases standard_settled hform happ (BlockRun.tracks_start rfl) hfold with
    ⟨sent, last, hs, hexpanded⟩ | ⟨hs, q, hq, helided⟩
  · obtain ⟨owner, hl, _⟩ := hs.finish hfinish
    have hsame : owner = last := by
      rcases hl.source with hlast | ⟨hnil, _⟩
      · exact Option.some.inj (hlast.symm.trans hexpanded.last)
      · have hlast := hexpanded.last
        rw [hnil] at hlast
        cases hlast
    subst hsame
    exact ⟨sent, owner, hl, .inl hexpanded⟩
  · obtain ⟨owner, hl, hforwarded⟩ := hs.finish hfinish
    have hsame : owner = q := Option.some.inj ((hforwarded rfl).symm.trans hq)
    subst hsame
    exact ⟨[], owner, hl, .inr ⟨rfl, helided⟩⟩

/-- No block of the standard registry comes to nothing. -/
theorem lowerNode_standard_error {halt : Halt} (hreg : o.registry = .standard)
    (h : r.lowerNode o m paddings n = .error halt) : halt.error.cause ≠ .nothingProduced := by
  intro hcause
  rcases (lowerNode_eq_error h).2 with ⟨_, hkind⟩ | hforeseen | ⟨listed, applied, s, hlookup, happ,
    hfold, hprev, hforward, _⟩
  · rw [hcause] at hkind
    cases hkind
  · rw [hcause] at hforeseen
    exact hforeseen
  · rw [hreg] at hlookup
    rcases standard_settled (Registry.lookup_standard hlookup) happ (BlockRun.tracks_start rfl)
      hfold with ⟨sent, last, hs, hexpanded⟩ | ⟨_, q, hq, _⟩
    · have hlast := hs.previous.symm.trans hprev
      rw [hexpanded.last] at hlast
      cases hlast
    · rw [hq] at hforward
      cases hforward

end nodes

end NetLowering
