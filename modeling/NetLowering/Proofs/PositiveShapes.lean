import NetLowering.Proofs.Emission
import NetLowering.Proofs.Replay
import NetLowering.Proofs.Resolution
import NetLowering.Proofs.Stored

/-! # Positive shapes

The shapes of a plan start from shapes that a model declares and from the extents of its tensors, and all of
these are checked to be positive. From there on converters hand them down, but for two that count channels up: a
concatenation adds those of its operands, and a constant with more axes than a shape has takes the product of
its extents. Neither checks that the count is a machine integer (`Primitive.Counts`), so the shapes of a plan
are positive iff no count wraps around to a number that is not (`plan_shapes_positive_iff`). -/

namespace NetLowering

/-! ### Shapes -/

/-- All extents are positive. -/
structure Shape.Positive (s : Shape) : Prop where
  rows : 1 ≤ s.rows
  columns : 1 ≤ s.columns
  channels : 1 ≤ s.channels

theorem one_le_iff_not_le_zero {x : Int64} : 1 ≤ x ↔ ¬ x ≤ 0 := by
  rw [Int64.le_iff_toInt_le, Int64.le_iff_toInt_le, show (1 : Int64).toInt = 1 from rfl,
    show (0 : Int64).toInt = 0 from rfl]
  omega

/-- The number is no machine integer, and what is left of it is not positive. -/
def WrapsAround (count : Nat) : Prop := 2 ^ 63 ≤ count ∧ Int64.ofNat count ≤ 0

theorem one_le_ofNat_iff {count : Nat} (h : 0 < count) : 1 ≤ Int64.ofNat count ↔ ¬ WrapsAround count := by
  rw [one_le_iff_not_le_zero]
  refine not_congr ⟨fun hle => ⟨?_, hle⟩, fun hwraps => hwraps.2⟩
  apply Nat.le_of_not_lt
  intro hfits
  rw [Int64.le_iff_toInt_le, Int64.toInt_ofNat_of_lt hfits, show (0 : Int64).toInt = 0 from rfl] at hle
  omega

theorem ShapeDecl.canonical_positive {d : ShapeDecl} {s : Shape} (h : d.canonical 0 = .ok s) :
    s.Positive := by
  unfold ShapeDecl.canonical at h
  obtain ⟨given, _, h⟩ := bind_eq_ok_iff.mp h
  split at h
  · cases h
  · rename_i hpositive
    rw [if_neg (by decide)] at h
    cases h
    simp only [not_or] at hpositive
    obtain ⟨hrows, hcolumns, hchannels⟩ := hpositive
    refine ⟨?_, ?_, one_le_iff_not_le_zero.mpr hchannels⟩
    · simpa [Shape.pad] using one_le_iff_not_le_zero.mpr hrows
    · simpa [Shape.pad] using one_le_iff_not_le_zero.mpr hcolumns

/-- Channels that are positive add up to their sum, as far as machine integers go. -/
theorem foldl_channels {shapes : List Shape} (h : ∀ s ∈ shapes, s.Positive) :
    (shapes.map Shape.channels).foldl (· + ·) 0 =
      Int64.ofNat (shapes.map fun s => s.channels.toNatClampNeg).sum := by
  rw [← foldl_add_ofNat]
  congr 1
  refine List.map_congr_left fun s hs => ?_
  have hchannels : 0 ≤ s.channels := Int64.le_trans (by decide) (h s hs).channels
  exact (Int64.ofNat_toNatClampNeg _ hchannels).symm

theorem stack_positive_iff {first stacked : Shape} {shapes : List Shape} (hfirst : first ∈ shapes)
    (hshapes : ∀ s ∈ shapes, s.Positive) (h : Context.stack first shapes = .ok stacked) :
    stacked.Positive ↔ ¬ WrapsAround (shapes.map fun s => s.channels.toNatClampNeg).sum := by
  have hcount : 0 < (shapes.map fun s => s.channels.toNatClampNeg).sum := by
    refine List.sum_pos _ (fun x hx => ?_) (List.ne_nil_of_mem (List.mem_map_of_mem hfirst))
    obtain ⟨s, hs, rfl⟩ := List.mem_map.mp hx
    rw [Int64.toNatClampNeg_pos_iff, ← Int64.not_le, ← one_le_iff_not_le_zero]
    exact (hshapes s hs).channels
  unfold Context.stack at h
  split at h
  · cases h
  · cases h
    obtain ⟨hrows, hcolumns, _⟩ := hshapes first hfirst
    rw [← one_le_ofNat_iff hcount, ← foldl_channels hshapes]
    exact ⟨fun hpositive => hpositive.channels, fun hchannels => ⟨hrows, hcolumns, hchannels⟩⟩

/-! ### Constants -/

namespace Tensor.Checked

variable {t : Tensor} (h : t.Checked) {layout : Layout} {a : Constant}
include h

theorem dims_perm (ha : t.canonicalAs layout = .ok a) : a.dims.Perm t.dims := by
  unfold Tensor.canonicalAs at ha
  split at ha
  · cases ha
  · rename_i hrank
    split at ha
    · cases ha
      exact .refl _
    · rename_i perm hlayout
      have hperm : perm.Perm (List.range (t.dims.map Int64.toNatClampNeg).length) := by
        rw [List.length_map]
        exact Layout.permutation_perm hlayout (of_not_not hrank)
      split at ha
      · cases ha
      · cases ha
        dsimp only
        rw [h.dims_eq, permuteDims_ofNat]
        exact (permute_perm hperm).map _

theorem size_canonicalAs (ha : t.canonicalAs layout = .ok a) : a.size = Int64.ofNat t.volume := by
  have hperm : a.size = extentProduct t.dims := (h.dims_perm ha).foldl_op_eq
  rw [hperm, h.size, h.ofNat_size]

/-- The shape of a constant that declares none is positive, unless it has to count its values. -/
theorem constantShape_positive_iff (ha : t.canonicalAs layout = .ok a) :
    (Context.constantShape a).Positive ↔ (3 < t.dims.length → ¬ WrapsAround t.volume) := by
  have hperm := h.dims_perm ha
  have hvolume : 0 < t.volume := List.prod_pos h.extents_pos
  rw [← hperm.length_eq, ← one_le_ofNat_iff hvolume, ← h.size_canonicalAs ha]
  have hpositive : ∀ d ∈ a.dims, 1 ≤ d := by
    intro d hd
    rw [one_le_iff_not_le_zero, Int64.not_le]
    exact h.positive d (hperm.subset hd)
  unfold Context.constantShape
  split
  next hdims => simp [hdims, Shape.Positive.mk]
  next channels hdims =>
    rw [hdims] at hpositive ⊢
    exact iff_of_true ⟨Int64.le_refl 1, Int64.le_refl 1, hpositive _ (by simp)⟩ (by simp)
  next columns channels hdims =>
    rw [hdims] at hpositive ⊢
    exact iff_of_true ⟨Int64.le_refl 1, hpositive _ (by simp), hpositive _ (by simp)⟩ (by simp)
  next rows columns channels hdims =>
    rw [hdims] at hpositive ⊢
    exact iff_of_true ⟨hpositive _ (by simp), hpositive _ (by simp), hpositive _ (by simp)⟩ (by simp)
  next hzero hone htwo hthree =>
    have hmany : 3 < a.dims.length := by
      rcases hdims : a.dims with _ | ⟨_, _ | ⟨_, _ | ⟨_, _ | ⟨_, rest⟩⟩⟩⟩
      · exact absurd hdims hzero
      · exact absurd hdims (hone _)
      · exact absurd hdims (htwo _ _)
      · exact absurd hdims (hthree _ _ _)
      · simp
    exact ⟨fun hshape _ => hshape.channels, fun hsize => ⟨Int64.le_refl 1, Int64.le_refl 1, hsize hmany⟩⟩

end Tensor.Checked

theorem Model.canonicalWeight_eq_ok {m : Model} {n : Node} {role : String} {a : Constant}
    (h : m.canonicalWeight n role = .ok a) :
    ∃ t, m.weightTensor n role = .ok t ∧ t.canonicalAs (Model.weightLayout n role t) = .ok a := by
  unfold Model.canonicalWeight at h
  obtain ⟨t, ht, h⟩ := bind_eq_ok_iff.mp h
  refine ⟨t, ht, ?_⟩
  cases hread : t.canonicalAs (Model.weightLayout n role t) with
  | error e => rw [hread] at h; cases h
  | ok b => rw [hread] at h; cases h; rfl

theorem Model.mem_of_weightTensor {m : Model} {n : Node} {role : String} {t : Tensor}
    (h : m.weightTensor n role = .ok t) : t ∈ m.tensors := by
  unfold Model.weightTensor at h
  split at h
  · cases h
  · rename_i ref _
    cases htensor : m.tensor ref.tensor with
    | error e => rw [htensor] at h; cases h
    | ok t' =>
        rw [htensor] at h
        cases h
        exact List.mem_of_find?_eq_some (Model.tensor_eq_ok_iff.mp htensor)

/-! ### Counts -/

namespace Primitive

/-- The number of channels that a primitive made for a node of a model counts up: those of the operands of a
concatenation, or all values of a constant with more axes than a shape has. -/
inductive Counts (m : Model) (n : Node) (p : Primitive) : Nat → Prop
  | stacked : p.kind = .concatenation →
      Counts m n p (p.operands.map fun o => o.buffer.shape.channels.toNatClampNeg).sum
  | flattened {t : Tensor} : p.kind = .constant → n.outputShapes = [] → m.weightTensor n "value" = .ok t →
      3 < t.dims.length → Counts m n p t.volume

/-- The primitive counts up channels, and the count wraps around to a number that is not positive. -/
def Wraps (m : Model) (n : Node) (p : Primitive) : Prop := ∃ count, p.Counts m n count ∧ WrapsAround count

/-- The shapes of a primitive are positive, that of its output and those of its operands. -/
structure Positive (p : Primitive) : Prop where
  output : p.output.shape.Positive
  operands : ∀ o ∈ p.operands, o.buffer.shape.Positive

end Primitive

section conversion
variable {c : Context} {a : Action} {p : Primitive}

/-- What a converter is given has positive shapes. -/
def Context.GivesPositive (c : Context) : Prop :=
  ∀ index given, c.input index = .ok given → given.buffer.shape.Positive

theorem Context.GivesPositive.outputShape (hc : c.GivesPositive) {s : Shape} (h : c.outputShape = .ok s) :
    s.Positive := by
  unfold Context.outputShape at h
  split at h
  · exact ShapeDecl.canonical_positive h
  · split at h
    · cases h
    · obtain ⟨given, hgiven, h⟩ := bind_eq_ok_iff.mp h
      cases h
      exact hc 0 given hgiven

theorem Context.GivesPositive.operands (hc : c.GivesPositive) (h : a.Makes c p) :
    ∀ o ∈ p.operands, o.buffer.shape.Positive := by
  obtain ⟨_, _, hmade⟩ := h
  intro o ho
  obtain ⟨i, hi, rfl⟩ := List.mem_iff_getElem.mp ho
  have hlen := hmade.operands.length_eq
  obtain ⟨given, hgiven, hview⟩ := hmade.operands.get (by omega) hi
  rw [List.get_eq_getElem] at hview
  rw [hview, Action.view_shape]
  exact hc _ given hgiven

/-- Converters that count nothing hand positive shapes down. -/
theorem Context.GivesPositive.output (hc : c.GivesPositive) (h : a.Makes c p) (ha : a.isScript = false)
    (hsplice : a ≠ .splice) (hconstant : a ≠ .constant) :
    p.output.shape.Positive ∧ p.kind ≠ .concatenation ∧ p.kind ≠ .constant := by
  obtain ⟨kind, hkind, hmade⟩ := h
  have hshape := hmade.shape
  rw [hmade.kind]
  cases a with
  | splice => exact absurd rfl hsplice
  | constant => exact absurd rfl hconstant
  | script _ => cases ha
  | passthrough => cases hkind
  | input =>
      cases hkind
      simp only [Action.shape, Context.declaredShape] at hshape
      split at hshape
      · cases hshape
      · exact ⟨ShapeDecl.canonical_positive hshape, by decide, by decide⟩
  | outputReorder | inputReorder =>
      cases hkind
      obtain ⟨given, hgiven, hshape⟩ := bind_eq_ok_iff.mp hshape
      rw [← Except.ok.inj hshape]
      exact ⟨hc 0 given hgiven, by decide, by decide⟩
  | _ =>
      cases hkind
      exact ⟨hc.outputShape hshape, by decide, by decide⟩

theorem Context.GivesPositive.constant_iff (hc : c.GivesPositive) (hm : c.model.Reachable)
    (h : Action.constant.Makes c p) : p.output.shape.Positive ↔ ¬ p.Wraps c.model c.node := by
  obtain ⟨kind, hkind, hmade⟩ := h
  cases hkind
  have hshape := hmade.shape
  unfold Action.shape at hshape
  dsimp only at hshape
  split at hshape
  · rename_i hempty
    obtain ⟨value, hvalue, heq⟩ : ∃ value, c.weight "value" = .ok value ∧
        Context.constantShape value = p.output.shape := by
      cases hvalue : c.weight "value" with
      | error e => rw [hvalue] at hshape; cases hshape
      | ok value => rw [hvalue] at hshape; exact ⟨value, rfl, Except.ok.inj hshape⟩
    obtain ⟨t, ht, hread⟩ := Model.canonicalWeight_eq_ok hvalue
    have hchecked := hm.checked t (Model.mem_of_weightTensor ht)
    rw [← heq, hchecked.constantShape_positive_iff hread]
    constructor
    · rintro hfits ⟨_, hcounts, hwraps⟩
      cases hcounts with
      | stacked hkind => rw [hmade.kind] at hkind; cases hkind
      | flattened _ _ ht' hmany =>
          rw [ht] at ht'
          cases ht'
          exact hfits hmany hwraps
    · intro hfits hmany hwraps
      exact hfits ⟨_, .flattened hmade.kind (by simpa using hempty) ht hmany, hwraps⟩
  · rename_i hdeclared
    refine iff_of_true (hc.outputShape hshape) ?_
    rintro ⟨_, hcounts, _⟩
    cases hcounts with
    | stacked hkind => rw [hmade.kind] at hkind; cases hkind
    | flattened _ hempty => simp [hempty] at hdeclared

theorem Context.GivesPositive.splice_iff (hc : c.GivesPositive) (h : Action.splice.Makes c p) :
    p.output.shape.Positive ↔ ¬ p.Wraps c.model c.node := by
  have hpositive := hc.operands h
  obtain ⟨kind, hkind, hmade⟩ := h
  cases hkind
  obtain ⟨operands, hoperands, hshape⟩ := bind_eq_ok_iff.mp hmade.shape
  -- the operands that are stacked are those of the primitive
  have hsame : p.operands = operands := by
    have hread : List.Forall₂ (fun i o => c.input (Int.ofNat i) = .ok o) (List.range c.node.inputs.length)
        p.operands := by
      have hreads := hmade.operands
      rw [Action.reads, List.forall₂_map_left_iff] at hreads
      refine hreads.imp fun i o ho => ?_
      obtain ⟨given, hgiven, rfl⟩ := ho
      exact hgiven
    refine List.right_unique_forall₂' ?_ hread (c.inputs_ends.result hoperands)
    intro i o o' ho ho'
    exact Except.ok.inj (ho.symm.trans ho')
  subst hsame
  split at hshape
  · cases hshape
  · rename_i first rest hcons
    have hshapes : ∀ s ∈ p.operands.map (fun o => o.buffer.shape), s.Positive := by
      intro s hs
      obtain ⟨o, ho, rfl⟩ := List.mem_map.mp hs
      exact hpositive o ho
    have hfirst : first ∈ p.operands := by rw [hcons]; exact List.mem_cons_self
    rw [stack_positive_iff (List.mem_map_of_mem hfirst) hshapes hshape, List.map_map]
    refine not_congr ⟨fun hwraps => ⟨_, .stacked hmade.kind, hwraps⟩, ?_⟩
    rintro ⟨_, hcounts, hwraps⟩
    cases hcounts with
    | stacked _ => exact hwraps
    | flattened hkind => rw [hmade.kind] at hkind; cases hkind

/-- From positive shapes a standard converter makes a positive shape, unless its count wraps around. -/
theorem Context.GivesPositive.positive_iff (hc : c.GivesPositive) (hm : c.model.Reachable)
    (h : a.Makes c p) (ha : a.isScript = false) : p.Positive ↔ ¬ p.Wraps c.model c.node := by
  have houtput : p.output.shape.Positive ↔ ¬ p.Wraps c.model c.node := by
    by_cases hsplice : a = .splice
    · subst hsplice
      exact hc.splice_iff h
    by_cases hconstant : a = .constant
    · subst hconstant
      exact hc.constant_iff hm h
    obtain ⟨hpositive, hstacked, hflattened⟩ := hc.output h ha hsplice hconstant
    refine iff_of_true hpositive ?_
    rintro ⟨_, hcounts, _⟩
    cases hcounts with
    | stacked hkind => exact hstacked hkind
    | flattened hkind => exact hflattened hkind
  rw [← houtput]
  exact ⟨fun hp => hp.output, fun hshape => ⟨hshape, hc.operands h⟩⟩

end conversion

/-! ### Plans -/

/-- A plan node that goes on from plan nodes with positive shapes has positive shapes, unless its count wraps
around. -/
theorem Turn.positive_iff {m : Model} {p : Plan} {n : Node} {c : Context} {applied : Block}
    (ht : Turn m p n c applied) (hm : m.Reachable) {q : PlanNode} (hq : q ∈ p.table.emitted n.id)
    (hbelow : ∀ k ∈ p.nodes, k.id < q.id → k.primitive.Positive) :
    q.primitive.Positive ↔ ¬ q.primitive.Wraps m n := by
  obtain ⟨sent, e, s, horigin, hknown⟩ := ht.origin hq
  have hgives : (s.here c e).GivesPositive := by
    intro index given hgiven
    obtain ⟨k, hk, hlt, rfl⟩ := horigin.source hgiven
    exact (hbelow k (hknown k hk) hlt).output
  have hpositive := hgives.positive_iff (ht.model ▸ hm) horigin.makes horigin.standard
  rw [← ht.model, ← ht.node]
  exact hpositive

/-- With the standard registry the shapes of a plan are positive, those of all outputs and operands, iff no
count of channels wraps around to a number that is not positive. -/
theorem plan_shapes_positive_iff (o : Options) (name : String) (m : Model) (p : Plan) (hm : m.Reachable)
    (hreg : o.registry = .standard) (h : plan o name m = .ok p) :
    (∀ q ∈ p.nodes, q.primitive.Positive) ↔
      ∀ n ∈ p.order, ∀ q ∈ p.table.emitted n.id, ¬ q.primitive.Wraps m n := by
  obtain ⟨paddings, start, final, hp⟩ := plan_eq_ok h
  constructor
  · intro hpositive n hn q hq
    obtain ⟨c, applied, ht⟩ := hp.turn hm.consistent hreg hn
    have hq' := hpositive q (Plan.mem_nodes_of_emitted hq)
    exact (ht.positive_iff hm hq fun k hk _ => hpositive k hk).mp hq'
  · intro hfits q hq
    -- on the numbers of the plan nodes: what a plan node reads has a smaller one
    induction hid : q.id using Nat.strong_induction_on generalizing q with
    | _ id ih =>
        have hmem := hq
        rw [hp.nodes_eq hm.consistent, List.mem_flatMap] at hmem
        obtain ⟨n, hn, hemitted⟩ := hmem
        obtain ⟨c, applied, ht⟩ := hp.turn hm.consistent hreg hn
        refine (ht.positive_iff hm hemitted fun k hk hlt => ?_).mpr (hfits n hn q hemitted)
        exact ih k.id (hid ▸ hlt) k hk rfl

/-- Two images of as many channels as are half of all that can be counted, and their concatenation. -/
def wideImages : List Node :=
  [{ id := "left", kind := .input, outputs := ["a"]
     outputShapes := [⟨[4611686018427387904, 1, 1], .channelRowColumn⟩] },
   { id := "right", kind := .input, outputs := ["b"]
     outputShapes := [⟨[4611686018427387904, 1, 1], .channelRowColumn⟩] },
   { id := "both", kind := .splice, inputs := ["a", "b"], outputs := ["y"]
     attributes := [(spliceAxisAttribute, .word "channel")] }]

theorem plan_shapes_positive_wideImages : ∃ p, plan standardOptions "net" ⟨wideImages, []⟩ = .ok p ∧
    p.nodes.map (fun q => q.primitive.output.shape) =
      [⟨1, 1, 4611686018427387904⟩, ⟨1, 1, 4611686018427387904⟩, ⟨1, 1, -9223372036854775808⟩] ∧
    ∃ n ∈ p.order, ∃ q ∈ p.table.emitted n.id, q.primitive.Wraps ⟨wideImages, []⟩ n := by
  have hreach : (Model.mk wideImages []).Reachable :=
    Model.reachable_of_consistent ⟨by decide, by decide, by decide, by decide⟩
  obtain ⟨p, hplan, hshapes⟩ : ∃ p, plan standardOptions "net" ⟨wideImages, []⟩ = .ok p ∧
      p.nodes.map (fun q => q.primitive.output.shape) = [⟨1, 1, 4611686018427387904⟩,
        ⟨1, 1, 4611686018427387904⟩, ⟨1, 1, -9223372036854775808⟩] := exists_plan_of_view (by cbv)
  refine ⟨p, hplan, hshapes, ?_⟩
  by_contra hnone
  simp only [not_exists, not_and] at hnone
  have hpositive := (plan_shapes_positive_iff standardOptions "net" _ p hreach rfl hplan).mpr hnone
  have hmem : (⟨1, 1, -9223372036854775808⟩ : Shape) ∈ p.nodes.map fun q => q.primitive.output.shape := by
    rw [hshapes]; simp
  obtain ⟨q, hq, hshape⟩ := List.mem_map.mp hmem
  have hchannels := (hpositive q hq).output.channels
  rw [hshape] at hchannels
  exact absurd hchannels (by decide)

end NetLowering
