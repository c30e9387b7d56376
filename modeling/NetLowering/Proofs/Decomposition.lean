import Mathlib
import NetLowering.Proofs.Elementwise
import NetLowering.Proofs.Leaves
import NetLowering.Proofs.StrictPadding
import NetLowering.Proofs.Unfusing

/-! # How nodes come apart

Which converters emit something for a node can be read off the node, the border its readers expect and the
border its first input was written with: `Plan.emitters` lists them. With the standard registry a node that
emits anything has one plan node for each of them, each reading the one before; only the last has the border
that the readers expect, the others have none but for a copy of the input in front, and from the main converter
on they all have one shape. This is `Plan.Decomposes`, and `standard_plan_decomposes` shows it of every node of a
plan, except for those that emit nothing. -/

namespace NetLowering

/-! ### Converters by the plan -/

namespace Plan

/-- The border that the first input of a node was written with. -/
def borderRead? (p : Plan) (n : Node) : Option Padding :=
  (n.inputs.head?.bind p.table.owner?).map fun q => q.primitive.output.padding

/-- The copy of its input that a convolution starts with, unless the input has the border it expects. -/
def copyRead (p : Plan) (n : Node) : Block :=
  if (p.borderRead? n).any (fun border => border ≠ n.inputPadding) then [Registry.inputReorder] else []

/-- The converters that emit something for a node whose readers expect a border. -/
def emitters (p : Plan) (n : Node) (expected : Padding) : Block :=
  match n.kind with
  | .input => Registry.input :: if 0 < expected.size then [Registry.outputReorder] else []
  | .convolution => p.copyRead n ++ Registry.convolution :: Part.block n.partsCarried
  | .binaryConvolution => p.copyRead n ++ Registry.binaryConvolution :: Part.block n.partsCarried
  | .fullyConnected => Registry.fullyConnected :: Part.block n.partsCarried
  | .batchNormalization => Registry.batchNormalization :: Part.block n.partsCarried
  | kind => Registry.standardBlock kind

/-- What a node whose readers expect a border comes apart into: the converters of its block that apply, in their
order, each going on from the one before. The last writes the border expected, and the others none, but for a
copy of the input in front. From the main converter on there is one shape. -/
structure Decomposes (p : Plan) (n : Node) (expected : Padding) : Prop where
  sublist : (p.emitters n expected).Sublist (Registry.standardBlock n.kind)
  converters : List.Forall₂ (fun cv q => q.converter = cv.name ∧ cv.action.kind? = some q.primitive.kind)
    (p.emitters n expected) (p.table.emitted n.id)
  chain : (p.table.emitted n.id).IsChain PlanNode.Feeds
  last : ∃ q, (p.table.emitted n.id).getLast? = some q ∧ q.primitive.output.padding.Meets expected
  inner : ∀ q ∈ (p.table.emitted n.id).dropLast, q.primitive.output.padding = .absent ∨
    (p.table.emitted n.id).head? = some q ∧ q.converter = Registry.inputReorder.name ∧
      q.primitive.output.padding = n.inputPadding
  shape : n.kind.parts ≠ [] → ∃ shape, ∀ q ∈ p.table.emitted n.id,
    q.converter ≠ Registry.inputReorder.name → q.primitive.output.shape = shape

end Plan

/-! ### Emissions of a turn -/

section turns
variable {m : Model} {p : Plan} {n : Node} {c : Context} {applied : Block}

theorem Turn.emits_of_ne_nil (ht : Turn m p n c applied) (hne : p.table.emitted n.id ≠ []) :
    BlockRun.Emits c [] (Block.elements false applied) (p.table.emitted n.id) :=
  ht.emits.resolve_left fun h => hne h.1

theorem kind_of_mayForward {kind : OpKind}
    (h : ∃ cv ∈ Registry.standardBlock kind, cv.action.mayForward = true) :
    kind ∈ [OpKind.splice, .reshape, .passthrough] := by
  cases kind with
  | splice | reshape | passthrough => simp
  | unlisted => simp [Registry.standardBlock] at h
  | _ => exact absurd h (by decide)

theorem Registry.StandardForm.exists_required {kind : OpKind} {block : Block} (h : StandardForm kind block) :
    ∃ cv ∈ block, cv.isRequired = true := by
  cases h with
  | input => exact ⟨Registry.input, List.mem_cons_self, rfl⟩
  | sole hcv => exact ⟨_, List.mem_singleton_self _, hcv.required⟩
  | chain hchain =>
      obtain ⟨cv, hcv, hrequired⟩ := hchain.required
      exact ⟨cv, List.mem_append_right _ hcv, hrequired⟩

theorem Turn.kind_of_emitted_eq_nil (ht : Turn m p n c applied) (hblock : Registry.standardBlock n.kind ≠ [])
    (h : p.table.emitted n.id = []) : n.kind ∈ [OpKind.splice, .reshape, .passthrough] := by
  obtain ⟨happlied, hrequired⟩ := applicable_eq_ok ht.block
  rcases ht.emits with ⟨_, cv, hcv, hforward⟩ | hemits
  · rw [happlied] at hcv
    exact kind_of_mayForward ⟨cv, List.mem_of_mem_filter hcv, hforward⟩
  · -- the required converter would have emitted something
    obtain ⟨cv, hcv, hreq⟩ := (Registry.standardBlock_form hblock).exists_required
    have hmem : cv ∈ applied := by
      rw [happlied]
      exact List.mem_filter.mpr ⟨hcv, hrequired cv hcv hreq⟩
    rw [h] at hemits
    generalize helements : Block.elements false applied = elements at hemits
    cases hemits
    rw [← elements_converters false applied, helements] at hmem
    cases hmem

/-! ### The converters that apply -/

/-- If all of its block read input 0, the first input has an owner when its turn comes. -/
theorem Turn.exists_owner (ht : Turn m p n c applied) (hne : p.table.emitted n.id ≠ [])
    (hreads : ∀ cv ∈ Registry.standardBlock n.kind, cv.action.reads n = [0]) :
    ∃ x k, n.inputs.head? = some x ∧ c.table.owner? x = some k := by
  have hemits := ht.emits_of_ne_nil hne
  obtain ⟨q, more, hsplit⟩ := List.exists_cons_of_ne_nil hne
  rw [hsplit] at hemits
  generalize helements : Block.elements false applied = elements at hemits
  cases hemits with
  | @cons _ _ e s _ rest horigin _ =>
      have hmem : e.converter ∈ Registry.standardBlock n.kind := ht.converter_mem (List.nil_append (e :: rest) ▸ helements)
      obtain ⟨_, _, hmade⟩ := horigin.makes
      have hoperands := hmade.operands
      rw [show (s.here c e).node = n from ht.node, hreads _ hmem, List.forall₂_cons_left_iff] at hoperands
      obtain ⟨_, _, ⟨given, hgiven, _⟩, _⟩ := hoperands
      obtain ⟨x, k, hx, hk, _⟩ := horigin.first hgiven
      exact ⟨x, k, ht.node ▸ hx, hk⟩

theorem Turn.borderRead?_eq (ht : Turn m p n c applied) {x : String} {k : PlanNode}
    (hx : n.inputs.head? = some x) (hk : c.table.owner? x = some k) :
    p.borderRead? n = some k.primitive.output.padding := by
  rw [Plan.borderRead?, hx, Option.bind_some, ht.kept x k hk]
  rfl

theorem Turn.inputReorder_applies (ht : Turn m p n c applied) {x : String} {k : PlanNode}
    (hx : n.inputs.head? = some x) (hk : c.table.owner? x = some k) :
    Registry.inputReorder.applies c = (p.borderRead? n).any fun border => border ≠ n.inputPadding := by
  have hproducer : c.producer 0 = .ok k := by
    refine c.producer_eq_ok (i := 0) ?_ hk
    rw [ht.node, ← List.head?_eq_getElem?]
    exact hx
  have happlies : Registry.inputReorder.applies c = Condition.inputPaddedOtherwise.holds c := rfl
  rw [happlies, Condition.holds, hproducer, ht.borderRead?_eq hx hk, ht.node]
  rfl

/-- What applies in the turn of a node can be read off the finished plan. -/
theorem Turn.applied_eq (ht : Turn m p n c applied) (hne : p.table.emitted n.id ≠ []) :
    applied = p.emitters n c.outputPadding := by
  obtain ⟨happlied, hrequired⟩ := applicable_eq_ok ht.block
  have hcarried : (Part.block n.kind.parts).filter (fun cv => cv.applies c) = Part.block n.partsCarried := by
    rw [filter_block, ht.node]
    rfl
  have hcopy (hreads : ∀ cv ∈ Registry.standardBlock n.kind, cv.action.reads n = [0]) (rest : Block) :
      (Registry.inputReorder :: rest).filter (fun cv => cv.applies c) =
        p.copyRead n ++ rest.filter fun cv => cv.applies c := by
    obtain ⟨x, k, hx, hk⟩ := ht.exists_owner hne hreads
    rw [List.filter_cons, ht.inputReorder_applies hx hk, Plan.copyRead]
    split <;> rfl
  have hmain {main : Converter} (hmem : main ∈ Registry.standardBlock n.kind) (hreq : main.isRequired = true) :
      (main :: Part.block n.kind.parts).filter (fun cv => cv.applies c) = main :: Part.block n.partsCarried := by
    rw [List.filter_cons, if_pos (hrequired main hmem hreq), hcarried]
  rw [happlied]
  unfold Plan.emitters
  cases hkind : n.kind with
  | input =>
      rw [hkind] at hrequired
      rw [Registry.standardBlock, List.filter_cons, if_pos (hrequired _ List.mem_cons_self rfl),
        List.filter_singleton, outputReorder_applies, Bool.cond_decide]
  | convolution | binaryConvolution =>
      have hreads : ∀ cv ∈ Registry.standardBlock n.kind, cv.action.reads n = [0] := by
        rw [hkind]
        simp [Registry.standardBlock, Registry.inputReorder, Registry.convolution, Registry.binaryConvolution,
          Registry.bias, Registry.activation, Converter.asOptional, Action.reads]
      rw [hkind] at hmain
      exact (hcopy hreads _).trans (congrArg _ (hmain (List.mem_cons_of_mem _ List.mem_cons_self) rfl))
  | fullyConnected | batchNormalization =>
      rw [hkind] at hmain
      exact hmain List.mem_cons_self rfl
  | unlisted => rfl
  | _ =>
      rw [hkind] at hrequired
      exact List.filter_eq_self.mpr fun cv hcv => hrequired cv hcv (by revert cv; decide)

end turns

/-! ### Copies and what comes after them -/

/-- Whether a converter counts as an element of its block, and writes the shape of the node. -/
def Converter.isCore (cv : Converter) : Bool := !cv.adapter && cv.action.writesNodeShape

theorem Converter.isCore_iff {cv : Converter} :
    cv.isCore = true ↔ cv.adapter = false ∧ cv.action.writesNodeShape = true := by
  simp [isCore]

theorem isCore_of_mem_block {parts : List Part} {cv : Converter} (h : cv ∈ Part.block parts) :
    cv.isCore = true := by
  obtain ⟨part, _, rfl⟩ := List.mem_map.mp h
  cases part <;> rfl

/-- The kinds that are to read their input with the border that their node expects. -/
def PrimitiveKind.expectsBorder : PrimitiveKind → Bool
  | .convolution | .binaryConvolution | .fullyConnected | .pooling => true
  | _ => false

/-- Whether an action makes primitives that read their input with the border their node expects. -/
def Action.expectsBorder (a : Action) : Bool := a.kind?.any PrimitiveKind.expectsBorder

def Action.isConvolution : Action → Bool
  | .convolution | .binaryConvolution => true
  | _ => false

theorem expectsBorder_of_mem_block {parts : List Part} {cv : Converter} (h : cv ∈ Part.block parts) :
    cv.action.expectsBorder = false := by
  obtain ⟨part, _, rfl⟩ := List.mem_map.mp h
  cases part <;> rfl

theorem Action.border_of_not_isLast {a : Action} (ha : a.writesNodeShape = true) (c : Context) :
    a.border { c with isLast := false } = .absent := by
  cases a with
  | input | outputReorder | inputReorder | constant | splice | passthrough | script => cases ha
  | _ => rfl

/-- Adapters are neither first nor last, and the others have their places as without them. -/
theorem elements_append_of_adapters (begun : Bool) {adapters : Block}
    (h : ∀ cv ∈ adapters, cv.adapter = true) (core : Block) :
    Block.elements begun (adapters ++ core) =
      adapters.map (fun cv => ⟨cv, false, false⟩) ++ Block.elements begun core := by
  induction adapters with
  | nil => rfl
  | cons cv rest ih =>
      have hcv := h cv List.mem_cons_self
      rw [List.cons_append, Block.elements, hcv, Bool.not_true, Bool.or_false,
        ih fun cv' hcv' => h cv' (List.mem_cons_of_mem _ hcv')]
      simp

namespace BlockRun

variable {c : Context} {sent more : List PlanNode}

/-- Of converters that all count, only the last writes a border. -/
theorem Emits.absent_of_core {begun : Bool} {core : Block} (hcore : ∀ cv ∈ core, cv.isCore = true)
    (h : Emits c sent (Block.elements begun core) more) :
    ∀ q ∈ more.dropLast, q.primitive.output.padding = .absent := by
  induction core generalizing begun sent more with
  | nil => cases h; simp
  | cons cv rest ih =>
      rw [Block.elements] at h
      cases h with
      | @cons _ more _ _ q _ hq hrest =>
          have hinner := ih (fun cv' hcv' => hcore cv' (List.mem_cons_of_mem _ hcv')) hrest
          cases rest with
          | nil => cases hrest; simp
          | cons next others =>
              have hnext := (Converter.isCore_iff.mp (hcore next (by simp))).1
              have hborder := hq.border
              rw [Element.border, List.all_cons, hnext, Bool.false_and, Bool.and_false] at hborder
              have habsent : q.primitive.output.padding = .absent :=
                hborder.trans (Action.border_of_not_isLast (Converter.isCore_iff.mp (hcore cv (by simp))).2 c)
              have hmore : more ≠ [] := by
                intro hnil
                rw [hnil] at hrest
                cases hrest
              rw [List.dropLast_cons_of_ne_nil hmore]
              exact List.forall_mem_cons.mpr ⟨habsent, hinner⟩

/-- Plan nodes in the shape of the node, one after the other, have one shape. -/
theorem Emits.shape_eq {elements : List Element} {e : Element} {s : BlockRun} {k : PlanNode}
    (hk : (s.here c e).outputShape = .ok k.primitive.output.shape)
    (helements : ∀ e ∈ elements, e.converter.action.writesNodeShape = true)
    (h : Emits c (sent ++ [k]) elements more) :
    ∀ q ∈ more, q.primitive.output.shape = k.primitive.output.shape := by
  induction elements generalizing sent more e s k with
  | nil => cases h; simp
  | cons e' rest ih =>
      cases h with
      | @cons _ more _ s' q _ hq hrest =>
          have hwrites := hq.writes (helements e' List.mem_cons_self)
          have hsame := hq.outputShape_eq hk hwrites
          refine List.forall_mem_cons.mpr ⟨hsame, fun q' hq' => ?_⟩
          rw [← hsame]
          exact ih hwrites (fun e he => helements e (List.mem_cons_of_mem _ he)) hrest q' hq'

theorem Emits.exists_shape {begun : Bool} {core : Block} (hcore : ∀ cv ∈ core, cv.isCore = true)
    (h : Emits c sent (Block.elements begun core) more) :
    ∃ shape, ∀ q ∈ more, q.primitive.output.shape = shape := by
  have hwrites : ∀ e ∈ Block.elements begun core, e.converter.action.writesNodeShape = true := by
    intro e he
    refine (Converter.isCore_iff.mp (hcore _ ?_)).2
    rw [← elements_converters begun core]
    exact List.mem_map_of_mem he
  generalize Block.elements begun core = elements at h hwrites
  cases h with
  | nil => exact ⟨⟨0, 0, 0⟩, List.forall_mem_nil _⟩
  | @cons _ more e s q _ hq hrest =>
      refine ⟨q.primitive.output.shape, List.forall_mem_cons.mpr ⟨rfl, ?_⟩⟩
      exact hrest.shape_eq (hq.writes (hwrites e List.mem_cons_self))
        fun e he => hwrites e (List.mem_cons_of_mem _ he)

end BlockRun

theorem standardBlock_sole {kind : OpKind} (hinput : kind ≠ .input) (hparts : kind.parts = [])
    (h : Registry.standardBlock kind ≠ []) :
    ∃ cv, Registry.standardBlock kind = [cv] ∧ cv.adapter = false ∧ cv.action.isConvolution = false := by
  cases kind with
  | input => exact absurd rfl hinput
  | convolution | binaryConvolution | fullyConnected | batchNormalization => cases hparts
  | invalid | skip | gru | lstm | region | vad | unlisted => exact absurd rfl h
  | _ => exact ⟨_, rfl, rfl, rfl⟩

theorem Plan.emitters_of_sole (p : Plan) {n : Node} (expected : Padding) (hinput : n.kind ≠ .input)
    (hparts : n.kind.parts = []) : p.emitters n expected = Registry.standardBlock n.kind := by
  unfold emitters
  cases hkind : n.kind with
  | input => exact absurd hkind hinput
  | convolution | binaryConvolution | fullyConnected | batchNormalization => rw [hkind] at hparts; cases hparts
  | _ => rfl

/-- What emits something for a node: a copy of the input or none, the main converter, and others that go on from
it. The copy is made if a convolution needs it. -/
theorem Plan.emitters_form (p : Plan) {n : Node} {expected : Padding} (h : p.emitters n expected ≠ []) :
    ∃ copies main rest, p.emitters n expected = copies ++ main :: rest ∧
      (copies = [] ∨ copies = [Registry.inputReorder]) ∧ main.adapter = false ∧
      (main.action.isConvolution = true → copies = p.copyRead n) ∧
      (∀ cv ∈ rest, cv.action.expectsBorder = false) ∧
      (n.kind.parts ≠ [] → ∀ cv ∈ main :: rest, cv.isCore = true) := by
  have hcore {main : Converter} (hmain : main.isCore = true) :
      ∀ cv ∈ main :: Part.block n.partsCarried, cv.isCore = true :=
    List.forall_mem_cons.mpr ⟨hmain, fun cv hcv => isCore_of_mem_block hcv⟩
  have hcopies : p.copyRead n = [] ∨ p.copyRead n = [Registry.inputReorder] := by
    unfold copyRead
    split
    · exact .inr rfl
    · exact .inl rfl
  by_cases hparts : n.kind.parts = []
  · by_cases hinput : n.kind = .input
    · unfold emitters
      rw [hinput]
      refine ⟨[], _, _, rfl, .inl rfl, rfl, fun hmain => Bool.noConfusion hmain, fun cv hcv => ?_,
        fun hparts => absurd rfl hparts⟩
      split at hcv
      · rw [List.mem_singleton.mp hcv]
        rfl
      · cases hcv
    · rw [p.emitters_of_sole expected hinput hparts] at h ⊢
      obtain ⟨cv, hcv, hadapter, haction⟩ := standardBlock_sole hinput hparts h
      exact ⟨[], cv, [], hcv, .inl rfl, hadapter, fun hmain => absurd hmain (Bool.eq_false_iff.mp haction),
        List.forall_mem_nil _, fun hne => absurd hparts hne⟩
  · unfold emitters
    cases hkind : n.kind with
    | convolution | binaryConvolution =>
        exact ⟨_, _, _, rfl, hcopies, rfl, fun _ => rfl, fun _ => expectsBorder_of_mem_block, fun _ => hcore rfl⟩
    | fullyConnected | batchNormalization =>
        exact ⟨[], _, _, rfl, .inl rfl, rfl, fun hmain => Bool.noConfusion hmain,
          fun _ => expectsBorder_of_mem_block, fun _ => hcore rfl⟩
    | _ => rw [hkind] at hparts; exact absurd rfl hparts

section parts
variable {m : Model} {p : Plan} {n : Node} {c : Context} {applied : Block}

theorem Turn.converters (ht : Turn m p n c applied) (hne : p.table.emitted n.id ≠ []) :
    List.Forall₂ (fun cv q => q.converter = cv.name ∧ cv.action.kind? = some q.primitive.kind)
      (p.emitters n c.outputPadding) (p.table.emitted n.id) := by
  rw [← ht.applied_eq hne, ← elements_converters false applied, List.forall₂_map_left_iff]
  refine (ht.emits_of_ne_nil hne).origins.imp fun e q h => ?_
  obtain ⟨sent, s, horigin⟩ := h
  obtain ⟨kind, hkind, hmade⟩ := horigin.makes
  exact ⟨horigin.converter, by rw [hkind, hmade.kind]⟩

theorem Turn.emitters_ne_nil (ht : Turn m p n c applied) (hne : p.table.emitted n.id ≠ []) :
    p.emitters n c.outputPadding ≠ [] := by
  intro hnil
  have hlength := (ht.converters hne).length_eq
  rw [hnil] at hlength
  exact hne (List.eq_nil_of_length_eq_zero hlength.symm)

theorem Turn.emitters_sublist (ht : Turn m p n c applied) (hne : p.table.emitted n.id ≠ []) :
    (p.emitters n c.outputPadding).Sublist (Registry.standardBlock n.kind) := by
  rw [← ht.applied_eq hne, (applicable_eq_ok ht.block).1]
  exact List.filter_sublist

/-- The plan nodes of a node with parts are a copy of the input, or none, and those of the core. -/
theorem Turn.split_of_parts (ht : Turn m p n c applied) (hne : p.table.emitted n.id ≠ [])
    (hparts : n.kind.parts ≠ []) :
    ∃ copied own, p.table.emitted n.id = copied ++ own ∧ own ≠ [] ∧
      (∀ q ∈ copied, (p.table.emitted n.id).head? = some q ∧ q.converter = Registry.inputReorder.name ∧
        q.primitive.output.padding = n.inputPadding) ∧
      (∀ q ∈ own.dropLast, q.primitive.output.padding = .absent) ∧
      ∃ shape, ∀ q ∈ own, q.primitive.output.shape = shape := by
  obtain ⟨copies, main, rest, hemitters, hcopies, _, _, _, hcore⟩ := p.emitters_form (ht.emitters_ne_nil hne)
  have hall := hcore hparts
  have hadapters : ∀ cv ∈ copies, cv.adapter = true := by
    rcases hcopies with rfl | rfl <;> decide
  have hemits := ht.emits_of_ne_nil hne
  rw [ht.applied_eq hne, hemitters, elements_append_of_adapters false hadapters] at hemits
  obtain ⟨copied, own, hsplit, hcopied, hown⟩ := hemits.append
  refine ⟨copied, own, hsplit, ?_, ?_, hown.absent_of_core hall, hown.exists_shape hall⟩
  · rintro rfl
    cases hown
  · rw [hsplit]
    rcases hcopies with rfl | rfl
    · cases hcopied
      simp
    · cases hcopied with
      | @cons _ _ _ _ q _ hq hrest =>
          cases hrest
          refine List.forall_mem_singleton.mpr ⟨rfl, hq.converter, hq.border.trans ?_⟩
          rw [← ht.node]
          rfl

theorem Turn.absent_of_input (ht : Turn m p n c applied) (hne : p.table.emitted n.id ≠ [])
    (hkind : n.kind = .input) : ∀ q ∈ (p.table.emitted n.id).dropLast, q.primitive.output.padding = .absent := by
  have hemitters : p.emitters n c.outputPadding =
      Registry.input :: if 0 < c.outputPadding.size then [Registry.outputReorder] else [] := by
    rw [Plan.emitters, hkind]
  have hemits := ht.emits_of_ne_nil hne
  have hlength := (ht.converters hne).length_eq
  rw [ht.applied_eq hne, hemitters, Block.elements] at hemits
  rw [hemitters] at hlength
  generalize p.table.emitted n.id = emitted at hemits hlength
  cases hemits with
  | @cons _ more _ _ q _ hq _ =>
      intro q' hq'
      have hmore : more.length ≤ 1 := by
        rw [List.length_cons, List.length_cons] at hlength
        split at hlength
        · rw [List.length_singleton] at hlength
          omega
        · rw [List.length_nil] at hlength
          omega
      have hsame : q' = q := by
        cases more with
        | nil => simp at hq'
        | cons k rest =>
            rw [List.length_cons] at hmore
            rw [List.eq_nil_of_length_eq_zero (show rest.length = 0 by omega)] at hq'
            simpa using hq'
      rw [hsame]
      exact hq.border

/-- Plan nodes that others of their node follow have no border, but for a copy of the input. -/
theorem Turn.inner (ht : Turn m p n c applied) (hne : p.table.emitted n.id ≠ []) :
    ∀ q ∈ (p.table.emitted n.id).dropLast, q.primitive.output.padding = .absent ∨
      (p.table.emitted n.id).head? = some q ∧ q.converter = Registry.inputReorder.name ∧
        q.primitive.output.padding = n.inputPadding := by
  intro q hq
  by_cases hparts : n.kind.parts = []
  · left
    by_cases hinput : n.kind = .input
    · exact ht.absent_of_input hne hinput q hq
    · -- the other kinds have one converter, and so at most one plan node
      have hlength := (ht.converters hne).length_eq
      have hemitters : p.emitters n c.outputPadding = Registry.standardBlock n.kind :=
        p.emitters_of_sole c.outputPadding hinput hparts
      have hblock := ht.emitters_ne_nil hne
      rw [hemitters] at hblock hlength
      obtain ⟨cv, hcv, _⟩ := standardBlock_sole hinput hparts hblock
      have hnil : (p.table.emitted n.id).dropLast = [] := by
        refine List.eq_nil_of_length_eq_zero ?_
        rw [List.length_dropLast, ← hlength, hcv, List.length_singleton]
      rw [hnil] at hq
      cases hq
  · obtain ⟨copied, own, hsplit, hown, hcopied, habsent, _⟩ := ht.split_of_parts hne hparts
    have hmem : q ∈ copied ++ own.dropLast := by
      rwa [hsplit, List.dropLast_append_of_ne_nil hown] at hq
    rcases List.mem_append.mp hmem with hq | hq
    · exact .inr (hcopied q hq)
    · exact .inl (habsent q hq)

theorem Turn.exists_shape (ht : Turn m p n c applied) (hne : p.table.emitted n.id ≠ [])
    (hparts : n.kind.parts ≠ []) : ∃ shape, ∀ q ∈ p.table.emitted n.id,
      q.converter ≠ Registry.inputReorder.name → q.primitive.output.shape = shape := by
  obtain ⟨copied, own, hsplit, _, hcopied, _, shape, hshape⟩ := ht.split_of_parts hne hparts
  refine ⟨shape, fun q hq hname => ?_⟩
  rw [hsplit] at hq
  rcases List.mem_append.mp hq with hq | hq
  · exact absurd (hcopied q hq).2.1 hname
  · exact hshape q hq

end parts

/-! ### Plans -/

section plans
variable {o : Options} {m : Model} {p : Plan} {paddings : Propagation} {start final : Run} {n : Node}

/-- What the readers of a node expect is what some node expects of its input, or no border. -/
theorem Planned.outputPadding_nonneg (hm : m.Consistent) (hp : Planned o m p paddings start final)
    (hn : n ∈ p.order) : 0 ≤ (paddings.outputPadding n.id).size := by
  rw [hp.order] at hn
  obtain ⟨hmem, _, hkept⟩ := mem_of_mem_order hn
  rcases propagate_settles hm hp.propagated hmem with ⟨_, hcyclic⟩ | ⟨required, hreq, _, hout, _⟩
  · rw [hkept] at hcyclic
    cases hcyclic
  · rw [hout]
    cases required with
    | nil => decide
    | cons first rest =>
        obtain ⟨leaf, hleaf, hfirst⟩ := Model.exists_leaf_of_mem_requirements hreq List.mem_cons_self
        rw [List.head?_cons, Option.getD_some, ← hfirst]
        exact hm.padding_nonneg leaf hleaf.mem_nodes

/-- The last plan node of a node has the border that the readers expect. -/
theorem Planned.emitted_last (hm : m.Consistent) (hreg : o.registry = .standard)
    (hp : Planned o m p paddings start final) (hn : n ∈ p.order) (hne : p.table.emitted n.id ≠ []) :
    ∃ q, (p.table.emitted n.id).getLast? = some q ∧
      q.primitive.output.padding.Meets (paddings.outputPadding n.id) := by
  obtain ⟨pre, post, hsplit⟩ := List.append_of_mem hn
  obtain ⟨before, after, hs⟩ := hp.stage hm hsplit
  obtain ⟨sent, owner, hl, hcases⟩ := lowerNode_standard hreg hs.lowered
  rw [(hs.lowering hl).1] at hne ⊢
  rcases hcases with hexpanded | ⟨hnil, _⟩
  · refine ⟨owner, hexpanded.last, ?_⟩
    rw [hexpanded.border]
    exact n.borderWritten_meets (hp.outputPadding_nonneg hm hn)
  · exact absurd hnil hne

theorem Planned.standardBlock_ne_nil (hm : m.Consistent) (hreg : o.registry = .standard)
    (hp : Planned o m p paddings start final) (hn : n ∈ p.order) : Registry.standardBlock n.kind ≠ [] := by
  obtain ⟨pre, post, hsplit⟩ := List.append_of_mem hn
  obtain ⟨before, after, hs⟩ := hp.stage hm hsplit
  obtain ⟨listed, _, _, hlookup, _⟩ := lowerNode_eq_ok hs.lowered
  rw [hreg] at hlookup
  obtain ⟨rfl, hne⟩ := Registry.lookup_standard_eq hlookup
  exact hne

end plans

/-- With the standard registry every scheduled node comes apart as `Plan.Decomposes` says, unless it is of a kind
that may emit nothing and does so. -/
theorem standard_plan_decomposes (o : Options) (name : String) (m : Model) (p : Plan) (hm : m.Reachable)
    (hreg : o.registry = .standard) (h : plan o name m = .ok p) :
    ∃ paddings, propagate o.strictPadding m = .ok paddings ∧ ∀ n ∈ p.order,
      p.table.emitted n.id = [] ∧ n.kind ∈ [OpKind.splice, .reshape, .passthrough] ∨
        p.Decomposes n (paddings.outputPadding n.id) := by
  obtain ⟨paddings, start, final, hp⟩ := plan_eq_ok h
  refine ⟨paddings, hp.propagated, fun n hn => ?_⟩
  obtain ⟨c, applied, ht, hexpected⟩ := hp.padded_turn hm.consistent hreg hn
  by_cases hne : p.table.emitted n.id = []
  · exact .inl ⟨hne, ht.kind_of_emitted_eq_nil (hp.standardBlock_ne_nil hm.consistent hreg hn) hne⟩
  · have hsublist := ht.emitters_sublist hne
    have hconverters := ht.converters hne
    rw [hexpected] at hsublist hconverters
    exact .inr ⟨hsublist, hconverters, (hp.emitted_reads hm.consistent hreg hn).2,
      hp.emitted_last hm.consistent hreg hn hne, ht.inner hne, ht.exists_shape hne⟩

/-- An image that is read without a border first, and by a convolution with all its parts afterwards, whose own
reader expects another border. -/
def sharedImage : List Node :=
  [dotImage, { id := "glance", kind := .relu, inputs := ["x"], outputs := ["glanced"] }, fusedConvolution,
   { id := "norm", kind := .batchNormalization, inputs := ["y"], outputs := ["z"]
     weights := [("mean", ⟨"offset", .unset⟩), ("variance", ⟨"offset", .unset⟩)]
     inputPadding := ⟨2, .max⟩ }]

theorem standard_plan_decomposes_sharedImage :
    ∃ p paddings, plan standardOptions "net" ⟨sharedImage, filterTensors⟩ = .ok p ∧
      propagate false ⟨sharedImage, filterTensors⟩ = .ok paddings ∧
      (p.table.emitted "conv").map (fun q => (q.converter, q.primitive.output.padding)) =
        [("OptionalInputReorder", ⟨1, .zeros⟩), ("Convolution", .absent), ("OptionalBias", .absent),
          ("OptionalActivation", ⟨2, .max⟩)] ∧
      p.Decomposes fusedConvolution (paddings.outputPadding "conv") := by
  have hreach : (Model.mk sharedImage filterTensors).Reachable :=
    filterTensors_reachable.add_nodes ⟨by decide, by decide, by decide, by decide⟩
  obtain ⟨p, hplan, hview⟩ : ∃ p, plan standardOptions "net" ⟨sharedImage, filterTensors⟩ = .ok p ∧
      (p.order, (p.table.emitted "conv").map fun q => (q.converter, q.primitive.output.padding)) =
        (sharedImage, [("OptionalInputReorder", ⟨1, .zeros⟩), ("Convolution", .absent),
          ("OptionalBias", .absent), ("OptionalActivation", ⟨2, .max⟩)]) := exists_plan_of_view (by cbv)
  obtain ⟨horder, hemitted⟩ := Prod.mk.inj hview
  obtain ⟨paddings, hpaddings, hall⟩ := standard_plan_decomposes standardOptions "net" _ p hreach rfl hplan
  refine ⟨p, paddings, hplan, hpaddings, hemitted, ?_⟩
  refine (hall fusedConvolution (by rw [horder]; simp [sharedImage])).resolve_left fun hnone => ?_
  exact absurd hnone.2 (by decide)

end NetLowering
