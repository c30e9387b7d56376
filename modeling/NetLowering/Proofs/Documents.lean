import NetLowering.Document
import NetLowering.Proofs.Rounding
import NetLowering.Proofs.Sequence
import NetLowering.Proofs.Stored

/-! # What a document describes

`Document.toModel` accepts the well-formed documents and no others (`toModel_accepts_iff`). The checks are
spread over the entries, the tensors they make and the additions to the model, so each reader has a lemma that
says what it succeeds with: an entry is read into what it `Describes`. That the entries of a document do not
get in the way of one another is then what a model needs to be consistent. -/

namespace NetLowering

theorem inScope_eq_ok_iff {α : Type} {scope : Scope} {x : Except Error α} {a : α} :
    inScope scope x = .ok a ↔ x = .ok a := by
  cases x <;> simp [inScope]

/-! ### Names -/

/-- The layout goes by a tag. -/
def Layout.Named (tag : String) (layout : Layout) : Prop := layout ∈ tagged ∧ layout.text = tag

/-- The scheme goes by a name. -/
def PaddingScheme.Named (name : String) (scheme : PaddingScheme) : Prop := scheme ∈ listed ∧ scheme.text = name

/-- The kind goes by a name; scaling has two. -/
def OpKind.Named (name : String) (kind : OpKind) : Prop :=
  name = "ElementTimes" ∧ kind = .scaling ∨ kind ∈ vocabulary ∧ kind.text = name

theorem Layout.exists_named_iff {tag : String} : (∃ layout, Named tag layout) ↔ tag ∈ tagged.map text :=
  List.mem_map.symm

theorem PaddingScheme.exists_named_iff {name : String} :
    (∃ scheme, Named name scheme) ↔ name ∈ listed.map text := List.mem_map.symm

theorem OpKind.exists_named_iff {name : String} :
    (∃ kind, Named name kind) ↔ name = "ElementTimes" ∨ name ∈ vocabulary.map text := by
  simp [Named, exists_or]

/-- What a name stands for that may be left out. -/
def OrUnset {α : Type} (named : String → α → Prop) (unset : α) (name : String) (a : α) : Prop :=
  if name = "" then a = unset else named name a

theorem exists_orUnset_iff {α : Type} {named : String → α → Prop} {unset : α} {name : String} :
    (∃ a, OrUnset named unset name a) ↔ name = "" ∨ ∃ a, named name a := by
  unfold OrUnset
  by_cases hname : name = "" <;> simp [hname]

theorem Layout.ofText_eq_ok_iff {tag : String} {layout : Layout} :
    ofText tag = .ok layout ↔ Named tag layout := by
  have hfind : ofText? tag = some layout ↔ Named tag layout := Model.find?_key_eq_some_iff (by decide)
  rw [← hfind]
  unfold ofText
  cases ofText? tag <;> simp [fail]

theorem Layout.Named.unique {tag : String} {layout layout' : Layout} (h : Layout.Named tag layout)
    (h' : Layout.Named tag layout') : layout = layout' := by
  rw [← Layout.ofText_eq_ok_iff] at h h'
  exact Except.ok.inj (h.symm.trans h')

theorem PaddingScheme.ofText_eq_ok_iff {name : String} {scheme : PaddingScheme} :
    ofText name = .ok scheme ↔ Named name scheme := by
  have hfind : ofText? name = some scheme ↔ Named name scheme := Model.find?_key_eq_some_iff (by decide)
  rw [← hfind]
  unfold ofText
  cases ofText? name <;> simp [fail]

theorem OpKind.ofText_eq_ok_iff {name : String} {kind : OpKind} :
    ofText name = .ok kind ↔ Named name kind := by
  have hfind : ofText? name = some kind ↔ Named name kind := by
    unfold ofText? Named
    by_cases hname : name = "ElementTimes"
    · -- no kind has its second name for its first
      have hother : ∀ kind ∈ vocabulary, kind.text ≠ "ElementTimes" := by decide
      have hnone : ¬(kind ∈ vocabulary ∧ kind.text = name) := fun h => hother kind h.1 (h.2.trans hname)
      rw [if_pos hname, or_iff_left hnone, and_iff_right hname, Option.some.injEq, eq_comm]
    · rw [if_neg hname, or_iff_right fun h => hname h.1]
      exact Model.find?_key_eq_some_iff (by decide)
  rw [← hfind]
  unfold ofText
  cases ofText? name <;> simp [fail]

namespace Document

/-! ### Nodes -/

@[mk_iff]
structure WeightEntry.Describes (w : WeightEntry) (ref : WeightRef) : Prop where
  tensor : ref.tensor = w.tensor
  layout : OrUnset Layout.Named .unset w.layout ref.layout

@[mk_iff]
structure PaddingEntry.Describes (p : PaddingEntry) (padding : Padding) : Prop where
  size : padding.size = p.size
  scheme : OrUnset PaddingScheme.Named .zeros p.scheme padding.scheme

@[mk_iff]
structure ShapeEntry.Describes (s : ShapeEntry) (shape : ShapeDecl) : Prop where
  dims : shape.dims = s.dims
  layout : Layout.Named s.layout shape.layout

/-- The weight of a node that an entry stands for. -/
def DescribesWeight (w : String × WeightEntry) (weight : String × WeightRef) : Prop :=
  weight.1 = w.1 ∧ w.2.Describes weight.2

/-- The padding of a node with or without an entry for it. -/
def DescribesPadding : Option PaddingEntry → Padding → Prop
  | none, padding => padding = .absent
  | some p, padding => p.Describes padding

/-- The node that an entry stands for, with all its fields. -/
structure NodeEntry.Describes (e : NodeEntry) (n : Node) : Prop where
  id : n.id = e.id
  kind : OpKind.Named e.kind n.kind
  inputs : n.inputs = e.inputs
  outputs : n.outputs = e.outputs
  weights : List.Forall₂ DescribesWeight e.weights n.weights
  attributes : n.attributes = e.attributes
  inputPadding : DescribesPadding e.inputPadding n.inputPadding
  inputShapes : List.Forall₂ ShapeEntry.Describes e.inputShapes n.inputShapes
  outputShapes : List.Forall₂ ShapeEntry.Describes e.outputShapes n.outputShapes

theorem WeightEntry.toRef_eq_ok_iff {w : WeightEntry} {ref : WeightRef} :
    w.toRef = .ok ref ↔ w.Describes ref := by
  obtain ⟨tensor, layout⟩ := ref
  unfold toRef
  rw [WeightEntry.describes_iff, OrUnset]
  by_cases hlayout : w.layout = ""
  · simp [hlayout, eq_comm]
  · rw [if_neg hlayout, if_neg hlayout, bind_eq_ok_iff]
    simp [Layout.ofText_eq_ok_iff, and_comm, eq_comm (a := tensor)]

theorem PaddingEntry.toPadding_eq_ok_iff {p : PaddingEntry} {padding : Padding} :
    p.toPadding = .ok padding ↔ p.Describes padding := by
  obtain ⟨size, scheme⟩ := padding
  unfold toPadding
  rw [PaddingEntry.describes_iff, OrUnset]
  by_cases hscheme : p.scheme = ""
  · simp [hscheme, eq_comm]
  · rw [if_neg hscheme, if_neg hscheme, bind_eq_ok_iff]
    simp [PaddingScheme.ofText_eq_ok_iff, and_comm, eq_comm (a := size)]

theorem toPadding_eq_ok_iff {entry : Option PaddingEntry} {padding : Padding} :
    toPadding entry = .ok padding ↔ DescribesPadding entry padding := by
  cases entry with
  | none => simp [toPadding, DescribesPadding, eq_comm]
  | some p => exact PaddingEntry.toPadding_eq_ok_iff

theorem toShapes_eq_ok_iff {index : Nat} {entries : List ShapeEntry} {shapes : List ShapeDecl} :
    toShapes index entries = .ok shapes ↔ List.Forall₂ ShapeEntry.Describes entries shapes := by
  induction entries generalizing index shapes with
  | nil => simp [toShapes, eq_comm]
  | cons s rest ih =>
      simp only [toShapes, bind_eq_ok_iff, inScope_eq_ok_iff, Layout.ofText_eq_ok_iff, ih,
        List.forall₂_cons_left_iff, Except.ok.injEq]
      constructor
      · rintro ⟨layout, hlayout, others, hothers, rfl⟩
        exact ⟨⟨s.dims, layout⟩, others, ⟨rfl, hlayout⟩, hothers, rfl⟩
      · rintro ⟨⟨dims, layout⟩, others, ⟨rfl, hlayout⟩, hothers, rfl⟩
        exact ⟨layout, hlayout, others, hothers, rfl⟩

theorem toWeights_eq_ok_iff {entries : List (String × WeightEntry)} {weights : List (String × WeightRef)} :
    toWeights entries = .ok weights ↔ List.Forall₂ DescribesWeight entries weights := by
  induction entries generalizing weights with
  | nil => simp [toWeights, eq_comm]
  | cons w rest ih =>
      simp only [toWeights, bind_eq_ok_iff, inScope_eq_ok_iff, WeightEntry.toRef_eq_ok_iff, ih,
        List.forall₂_cons_left_iff, Except.ok.injEq]
      constructor
      · rintro ⟨ref, href, others, hothers, rfl⟩
        exact ⟨(w.1, ref), others, ⟨rfl, href⟩, hothers, rfl⟩
      · rintro ⟨⟨role, ref⟩, others, ⟨rfl, href⟩, hothers, rfl⟩
        exact ⟨ref, href, others, hothers, rfl⟩

theorem NodeEntry.toNode_eq_ok_iff {e : NodeEntry} {n : Node} : e.toNode = .ok n ↔ e.Describes n := by
  simp only [toNode, bind_eq_ok_iff, inScope_eq_ok_iff, OpKind.ofText_eq_ok_iff, toWeights_eq_ok_iff,
    toPadding_eq_ok_iff, toShapes_eq_ok_iff, Except.ok.injEq]
  constructor
  · rintro ⟨kind, hkind, weights, hweights, padding, hpadding, ins, hins, outs, houts, rfl⟩
    exact ⟨rfl, hkind, rfl, rfl, hweights, rfl, hpadding, hins, houts⟩
  · rintro ⟨hid, hkind, hinputs, houtputs, hweights, hattributes, hpadding, hins, houts⟩
    refine ⟨n.kind, hkind, n.weights, hweights, n.inputPadding, hpadding, n.inputShapes, hins,
      n.outputShapes, houts, ?_⟩
    rw [← hid, ← hinputs, ← houtputs, ← hattributes]

/-! ### Well-formed nodes -/

/-- What a node entry has to give by itself. -/
@[mk_iff]
structure NodeEntry.WellFormed (e : NodeEntry) : Prop where
  named : e.id ≠ ""
  kind : e.kind = "ElementTimes" ∨ e.kind ∈ OpKind.vocabulary.map OpKind.text
  weights : ∀ w ∈ e.weights, w.2.layout = "" ∨ w.2.layout ∈ Layout.tagged.map Layout.text
  inputPadding : ∀ p ∈ e.inputPadding,
    0 ≤ p.size ∧ (p.scheme = "" ∨ p.scheme ∈ PaddingScheme.listed.map PaddingScheme.text)
  inputShapes : ∀ s ∈ e.inputShapes, s.layout ∈ Layout.tagged.map Layout.text
  outputShapes : ∀ s ∈ e.outputShapes, s.layout ∈ Layout.tagged.map Layout.text

instance (e : NodeEntry) : Decidable e.WellFormed := decidable_of_iff' _ (NodeEntry.wellFormed_iff e)

theorem exists_weights_iff {entries : List (String × WeightEntry)} :
    (∃ weights, List.Forall₂ DescribesWeight entries weights) ↔
      ∀ w ∈ entries, w.2.layout = "" ∨ w.2.layout ∈ Layout.tagged.map Layout.text := by
  rw [exists_forall₂_iff]
  refine forall₂_congr fun w _ => ?_
  rw [← Layout.exists_named_iff]
  constructor
  · rintro ⟨weight, _, _, hlayout⟩
    exact exists_orUnset_iff.mp ⟨_, hlayout⟩
  · intro hlayout
    obtain ⟨layout, hlayout⟩ := exists_orUnset_iff.mpr hlayout
    exact ⟨(w.1, ⟨w.2.tensor, layout⟩), rfl, rfl, hlayout⟩

theorem exists_padding_iff {entry : Option PaddingEntry} :
    (∃ padding, DescribesPadding entry padding ∧ 0 ≤ padding.size) ↔ ∀ p ∈ entry,
      0 ≤ p.size ∧ (p.scheme = "" ∨ p.scheme ∈ PaddingScheme.listed.map PaddingScheme.text) := by
  cases entry with
  | none => simp [DescribesPadding, Padding.absent]
  | some p =>
      simp only [Option.mem_some_iff, forall_eq', ← PaddingScheme.exists_named_iff]
      constructor
      · rintro ⟨padding, ⟨hsize, hscheme⟩, hnonneg⟩
        exact ⟨hsize ▸ hnonneg, exists_orUnset_iff.mp ⟨_, hscheme⟩⟩
      · rintro ⟨hnonneg, hscheme⟩
        obtain ⟨scheme, hscheme⟩ := exists_orUnset_iff.mpr hscheme
        exact ⟨⟨p.size, scheme⟩, ⟨rfl, hscheme⟩, hnonneg⟩

theorem exists_shapes_iff {entries : List ShapeEntry} :
    (∃ shapes, List.Forall₂ ShapeEntry.Describes entries shapes) ↔
      ∀ s ∈ entries, s.layout ∈ Layout.tagged.map Layout.text := by
  rw [exists_forall₂_iff]
  refine forall₂_congr fun s _ => ?_
  rw [← Layout.exists_named_iff]
  constructor
  · rintro ⟨shape, _, hlayout⟩
    exact ⟨shape.layout, hlayout⟩
  · rintro ⟨layout, hlayout⟩
    exact ⟨⟨s.dims, layout⟩, rfl, hlayout⟩

/-- A well-formed entry describes a node, one that could stand in a model by itself. -/
theorem NodeEntry.wellFormed_iff_describes {e : NodeEntry} :
    e.WellFormed ↔ ∃ n, e.Describes n ∧ n.id ≠ "" ∧ 0 ≤ n.inputPadding.size := by
  constructor
  · rintro ⟨hnamed, hkind, hweights, hpadding, hins, houts⟩
    obtain ⟨kind, hkind⟩ := OpKind.exists_named_iff.mpr hkind
    obtain ⟨weights, hweights⟩ := exists_weights_iff.mpr hweights
    obtain ⟨padding, hpadding, hnonneg⟩ := exists_padding_iff.mpr hpadding
    obtain ⟨ins, hins⟩ := exists_shapes_iff.mpr hins
    obtain ⟨outs, houts⟩ := exists_shapes_iff.mpr houts
    exact ⟨⟨e.id, kind, e.inputs, e.outputs, weights, e.attributes, padding, ins, outs⟩,
      ⟨rfl, hkind, rfl, rfl, hweights, rfl, hpadding, hins, houts⟩, hnamed, hnonneg⟩
  · rintro ⟨n, hn, hid, hnonneg⟩
    exact ⟨hn.id ▸ hid, OpKind.exists_named_iff.mp ⟨_, hn.kind⟩, exists_weights_iff.mp ⟨_, hn.weights⟩,
      exists_padding_iff.mp ⟨_, hn.inputPadding, hnonneg⟩, exists_shapes_iff.mp ⟨_, hn.inputShapes⟩,
      exists_shapes_iff.mp ⟨_, hn.outputShapes⟩⟩

theorem NodeEntry.Describes.wellFormed_iff {e : NodeEntry} {n : Node} (h : e.Describes n) :
    e.WellFormed ↔ n.id ≠ "" ∧ 0 ≤ n.inputPadding.size := by
  rw [NodeEntry.wellFormed_iff_describes]
  constructor
  · rintro ⟨n', hn', hfit⟩
    rw [← NodeEntry.toNode_eq_ok_iff] at h hn'
    cases h.symm.trans hn'
    exact hfit
  · intro hfit
    exact ⟨n, h, hfit⟩

/-! ### Tensors -/

/-- What a tensor entry has to give by itself. -/
@[mk_iff]
structure TensorEntry.WellFormed (e : TensorEntry) : Prop where
  layout : ∃ layout ∈ Layout.tagged, layout.text = e.layout ∧ layout.rank? = some e.dims.length
  positive : ∀ d ∈ e.dims, 0 < d
  once : e.fill.isSome → e.values = []
  dtype : e.dtype ∈ ["", "float32", "float16"]
  count : e.fill.isNone → extentProduct e.dims = Int64.ofNat e.values.length

instance (e : TensorEntry) : Decidable e.WellFormed :=
  -- on the list: there are too many machine integers to try them all
  have : Decidable (∀ d ∈ e.dims, 0 < d) := e.dims.decidableBAll _
  decidable_of_iff' _ (TensorEntry.wellFormed_iff e)

/-- The values of a tensor that is filled can be addressed. -/
def TensorEntry.Allocatable (e : TensorEntry) : Prop :=
  e.fill.isSome → 0 ≤ extentProduct e.dims ∧ (extentProduct e.dims).toNatClampNeg * 8 ≤ addressable

instance (e : TensorEntry) : Decidable e.Allocatable := inferInstanceAs (Decidable (_ → _))

/-- What a value becomes in the precision of the tensor: in half precision it is rounded twice. -/
def TensorEntry.Stores (e : TensorEntry) (x : Double) (y : Single) : Prop :=
  if e.dtype = "float16" then
    ∃ (s : Single) (h : Half), BinaryFormat.double.Converts .single x.bits.toNat s.bits.toNat ∧
      BinaryFormat.single.Converts .half s.bits.toNat h.bits.toNat ∧
      BinaryFormat.half.Converts .single h.bits.toNat y.bits.toNat
  else BinaryFormat.double.Converts .single x.bits.toNat y.bits.toNat

/-- The values before they are stored: those listed, or copies of the fill. -/
def TensorEntry.given (e : TensorEntry) : List Double :=
  match e.fill with
  | none => e.values
  | some x => List.replicate (extentProduct e.dims).toNatClampNeg x

/-- The tensor that an entry stands for. -/
structure TensorEntry.Describes (e : TensorEntry) (t : Tensor) : Prop where
  id : t.id = e.id
  dims : t.dims = e.dims
  layout : Layout.Named e.layout t.layout
  data : List.Forall₂ e.Stores e.given t.data.toList

theorem TensorEntry.flatValues_eq_ok_iff {e : TensorEntry} {values : Array Double} :
    e.flatValues = .ok values ↔
      (e.fill.isSome → e.values = []) ∧ e.Allocatable ∧ values = e.given.toArray := by
  unfold flatValues Allocatable given
  cases e.fill with
  | none => simp [eq_comm]
  | some x =>
      by_cases hvalues : e.values = []
      · simp [hvalues, fillBuffer_eq_ok_iff, and_assoc]
      · simp [hvalues, fail]

/-- There are as many values as the extents multiply to: a fill is copied that often. -/
theorem TensorEntry.ofNat_length_given {e : TensorEntry} (hfits : e.Allocatable)
    (hcount : e.fill.isNone → extentProduct e.dims = Int64.ofNat e.values.length) :
    extentProduct e.dims = Int64.ofNat e.given.length := by
  unfold given
  cases hfill : e.fill with
  | none => exact hcount (by simp [hfill])
  | some x =>
      obtain ⟨hnonneg, _⟩ := hfits (by simp [hfill])
      rw [List.length_replicate, Int64.ofNat_toNatClampNeg _ hnonneg]

section tensors
variable [c : HalfConversion]

/-- A value as the program stores it. -/
def TensorEntry.stored (e : TensorEntry) (x : Double) : Single :=
  if e.dtype = "float16" then c.widen (c.narrow x.toSingle) else x.toSingle

theorem TensorEntry.stores_stored (hc : c.Documented) (e : TensorEntry) (x : Double) : e.Stores x (e.stored x) := by
  have hsingle := Double.converts_iff.mpr (rfl : x.toSingle = x.toSingle)
  unfold Stores stored
  split
  · exact ⟨_, _, hsingle, hc.narrow _, hc.widen _⟩
  · exact hsingle

/-- The tensor that the program makes of an entry. -/
structure TensorEntry.Builds (e : TensorEntry) (t : Tensor) : Prop where
  id : t.id = e.id
  dims : t.dims = e.dims
  layout : Layout.Named e.layout t.layout
  data : t.data = (e.given.map e.stored).toArray

theorem TensorEntry.Builds.describes (hc : c.Documented) {e : TensorEntry} {t : Tensor} (h : e.Builds t) :
    e.Describes t := by
  refine ⟨h.id, h.dims, h.layout, ?_⟩
  rw [h.data, List.toList_toArray, List.forall₂_map_right_iff, List.forall₂_same]
  exact fun x _ => e.stores_stored hc x

theorem TensorEntry.flatData_eq_ok {e : TensorEntry} {values : Array Double} {flat : FlatData}
    (h : e.flatData values = .ok flat) :
    e.dtype ∈ ["", "float32", "float16"] ∧ flat.stored = .ok (values.map e.stored) := by
  have hsingle (hdtype : e.dtype ≠ "float16") : e.stored = Double.toSingle := funext fun x => if_neg hdtype
  unfold flatData at h
  split at h
  · rename_i hdtype
    cases h
    rw [hsingle (by rw [hdtype]; decide), hdtype]
    exact ⟨by decide, rfl⟩
  · rename_i hdtype
    cases h
    rw [hsingle (by rw [hdtype]; decide), hdtype]
    exact ⟨by decide, rfl⟩
  · rename_i hdtype
    cases h
    have hhalf : e.stored = c.widen ∘ fun x => c.narrow x.toSingle := funext fun x => if_pos hdtype
    rw [hhalf, hdtype, ← Array.map_map]
    exact ⟨by decide, rfl⟩
  · cases h

theorem TensorEntry.exists_flatData {e : TensorEntry} (h : e.dtype ∈ ["", "float32", "float16"])
    (values : Array Double) : ∃ flat, e.flatData values = .ok flat := by
  unfold flatData
  simp only [List.mem_cons, List.not_mem_nil, or_false] at h
  rcases h with h | h | h
  all_goals
    rw [h]
    exact ⟨_, rfl⟩

/-- An entry is read into the tensor that it describes, if its id is new. -/
theorem TensorEntry.addTo_eq_ok_iff {e : TensorEntry} {m m' : Model} :
    e.addTo m = .ok m' ↔ e.WellFormed ∧ e.Allocatable ∧ m.tensor? e.id = none ∧
      ∃ t, e.Builds t ∧ m' = { m with tensors := m.tensors ++ [t] } := by
  unfold addTo
  rw [bind_eq_ok_iff]
  constructor
  · rintro ⟨layout, hlayout, h⟩
    split at h
    · cases h
    · rw [bind_eq_ok_iff] at h
      obtain ⟨values, hvalues, h⟩ := h
      rw [bind_eq_ok_iff] at h
      obtain ⟨flat, hflat, h⟩ := h
      obtain ⟨honce, hfits, rfl⟩ := flatValues_eq_ok_iff.mp hvalues
      obtain ⟨hdtype, hstored⟩ := flatData_eq_ok hflat
      obtain ⟨hnew, t, ht, rfl⟩ := Model.addTensor_eq_ok_iff.mp h
      obtain ⟨data, hdata, hrank, hpositive, hsize, rfl⟩ := Model.make_eq_ok_iff.mp ht
      cases hstored.symm.trans hdata
      rw [Layout.ofText_eq_ok_iff] at hlayout
      refine ⟨⟨⟨layout, hlayout.1, hlayout.2, hrank⟩, hpositive, honce, hdtype, fun hfill => ?_⟩, hfits, hnew,
        _, ⟨rfl, rfl, hlayout, ?_⟩, rfl⟩
      · rw [Option.isNone_iff_eq_none] at hfill
        simpa [given, hfill] using hsize
      · simp
  · rintro ⟨⟨⟨layout, hmem, htext, hrank⟩, hpositive, honce, hdtype, hcount⟩, hfits, hnew, t, ht, rfl⟩
    have hlayout : Layout.Named e.layout layout := ⟨hmem, htext⟩
    obtain ⟨flat, hflat⟩ := exists_flatData hdtype e.given.toArray
    obtain ⟨_, hstored⟩ := flatData_eq_ok hflat
    refine ⟨layout, Layout.ofText_eq_ok_iff.mpr hlayout, ?_⟩
    rw [if_neg (by simpa using hpositive), bind_eq_ok_iff]
    refine ⟨_, flatValues_eq_ok_iff.mpr ⟨honce, hfits, rfl⟩, ?_⟩
    rw [bind_eq_ok_iff]
    refine ⟨flat, hflat, Model.addTensor_eq_ok_iff.mpr ⟨hnew, t, ?_, rfl⟩⟩
    refine Model.make_eq_ok_iff.mpr ⟨_, hstored, hrank, hpositive, ?_, ?_⟩
    · simpa using ofNat_length_given hfits hcount
    · obtain ⟨id, dims, layout', data⟩ := t
      obtain ⟨rfl, rfl, hlayout', rfl⟩ := ht
      cases Layout.Named.unique hlayout' hlayout
      rw [List.map_toArray]

end tensors

/-! ### Additions -/

/-- Tensors are added one by one iff each can be and their ids tell them apart. -/
theorem addTensors_eq_ok_iff [HalfConversion] {entries : List TensorEntry} {m m' : Model} {index : Nat}
    (hm : (m.tensors.map Tensor.id).Nodup) :
    addTensors m index entries = .ok m' ↔ (∀ e ∈ entries, e.WellFormed ∧ e.Allocatable) ∧
      ∃ tensors, List.Forall₂ TensorEntry.Builds entries tensors ∧
        m' = { m with tensors := m.tensors ++ tensors } ∧ (m'.tensors.map Tensor.id).Nodup := by
  induction entries generalizing m index with
  | nil =>
      simp only [addTensors, Except.ok.injEq, List.not_mem_nil, false_implies, implies_true, true_and,
        List.forall₂_nil_left_iff, exists_eq_left, List.append_nil]
      constructor
      · rintro rfl
        exact ⟨rfl, hm⟩
      · rintro ⟨rfl, _⟩
        rfl
  | cons e rest ih =>
      simp only [addTensors, bind_eq_ok_iff, inScope_eq_ok_iff, TensorEntry.addTo_eq_ok_iff]
      constructor
      · rintro ⟨m₁, ⟨hwell, hfits, hnew, t, ht, rfl⟩, hrest⟩
        rw [← ht.id] at hnew
        rw [ih (Model.nodup_tensor_ids_concat_iff.mpr ⟨hnew, hm⟩)] at hrest
        obtain ⟨hentries, tensors, htensors, rfl, hids⟩ := hrest
        refine ⟨List.forall_mem_cons.mpr ⟨⟨hwell, hfits⟩, hentries⟩, t :: tensors, .cons ht htensors, ?_, hids⟩
        simp
      · rintro ⟨hentries, _, htensors, rfl, hids⟩
        obtain ⟨⟨hwell, hfits⟩, hentries⟩ := List.forall_mem_cons.mp hentries
        rw [List.forall₂_cons_left_iff] at htensors
        obtain ⟨t, tensors, ht, htensors, rfl⟩ := htensors
        have hconcat : ((m.tensors ++ [t]).map Tensor.id).Nodup := by
          rw [List.append_cons, List.map_append] at hids
          exact hids.of_append_left
        have hnew := (Model.nodup_tensor_ids_concat_iff.mp hconcat).1
        refine ⟨{ m with tensors := m.tensors ++ [t] }, ⟨hwell, hfits, ht.id ▸ hnew, t, ht, rfl⟩, ?_⟩
        refine (ih hconcat).mpr ⟨hentries, tensors, htensors, ?_, hids⟩
        simp

/-- Nodes are added one by one iff each is described and together they are consistent. -/
theorem addNodes_eq_ok_iff {entries : List NodeEntry} {m m' : Model} {index : Nat} (hm : m.Consistent) :
    addNodes m index entries = .ok m' ↔ ∃ nodes, List.Forall₂ NodeEntry.Describes entries nodes ∧
      m' = { m with nodes := m.nodes ++ nodes } ∧ m'.Consistent := by
  induction entries generalizing m index with
  | nil =>
      simp only [addNodes, Except.ok.injEq, List.forall₂_nil_left_iff, exists_eq_left, List.append_nil]
      constructor
      · rintro rfl
        exact ⟨rfl, hm⟩
      · rintro ⟨rfl, _⟩
        rfl
  | cons e rest ih =>
      simp only [addNodes, NodeEntry.addTo, bind_eq_ok_iff, inScope_eq_ok_iff, NodeEntry.toNode_eq_ok_iff]
      constructor
      · rintro ⟨m₁, ⟨n, hn, hadd⟩, hrest⟩
        obtain ⟨nodes, hnodes, rfl, hconsistent⟩ := (ih (hm.addNode hadd)).mp hrest
        obtain ⟨_, _, _, _, rfl⟩ := Model.addNode_eq_ok_iff.mp hadd
        refine ⟨n :: nodes, .cons hn hnodes, ?_, hconsistent⟩
        simp
      · rintro ⟨_, hnodes, rfl, hconsistent⟩
        rw [List.forall₂_cons_left_iff] at hnodes
        obtain ⟨n, nodes, hn, hnodes, rfl⟩ := hnodes
        have hadd : m.addNode n = .ok { m with nodes := m.nodes ++ [n] } := by
          rw [List.append_cons] at hconsistent
          exact Model.addNode_of_consistent hconsistent.of_append
        refine ⟨_, ⟨n, hn, hadd⟩, (ih (hm.addNode hadd)).mpr ⟨nodes, hnodes, ?_, hconsistent⟩⟩
        simp

/-! ### Documents -/

/-- The entries of a document are well-formed, and do not get in the way of one another. -/
@[mk_iff]
structure WellFormed (d : Document) : Prop where
  tensors : ∀ e ∈ d.tensors, e.WellFormed
  tensor_ids : (d.tensors.map TensorEntry.id).Nodup
  nodes : ∀ e ∈ d.nodes, e.WellFormed
  node_ids : (d.nodes.map NodeEntry.id).Nodup
  outputs : d.nodes.Pairwise fun a b => ∀ x ∈ a.outputs, x ∉ b.outputs

instance (d : Document) : Decidable d.WellFormed := decidable_of_iff' _ (wellFormed_iff d)

variable {d : Document} {m : Model}

theorem consistent_iff (h : List.Forall₂ NodeEntry.Describes d.nodes m.nodes) :
    m.Consistent ↔ (∀ e ∈ d.nodes, e.WellFormed) ∧ (d.nodes.map NodeEntry.id).Nodup ∧
      d.nodes.Pairwise fun a b => ∀ x ∈ a.outputs, x ∉ b.outputs := by
  have hids := map_eq_of_forall₂ (fun _ _ hn => NodeEntry.Describes.id hn) h
  have houtputs := map_eq_of_forall₂ (fun _ _ hn => NodeEntry.Describes.outputs hn) h
  have hpairs : (m.nodes.Pairwise fun a b => ∀ x ∈ a.outputs, x ∉ b.outputs) ↔
      d.nodes.Pairwise fun a b => ∀ x ∈ a.outputs, x ∉ b.outputs := by
    rw [← List.pairwise_map (f := Node.outputs) (R := fun xs ys => ∀ x ∈ xs, x ∉ ys), houtputs,
      List.pairwise_map]
  rw [forall_mem_iff_of_forall₂ (fun _ _ hn => NodeEntry.Describes.wellFormed_iff hn) h, ← hids, ← hpairs]
  constructor
  · rintro ⟨hnamed, hids, hdisjoint, hnonneg⟩
    exact ⟨fun n hn => ⟨hnamed n hn, hnonneg n hn⟩, hids, hdisjoint⟩
  · rintro ⟨hfit, hids, hdisjoint⟩
    exact ⟨fun n hn => (hfit n hn).1, hids, hdisjoint, fun n hn => (hfit n hn).2⟩

section models
variable [c : HalfConversion]

theorem toModel_eq_ok_iff : d.toModel = .ok m ↔
    (∀ e ∈ d.tensors, e.WellFormed ∧ e.Allocatable) ∧
      List.Forall₂ TensorEntry.Builds d.tensors m.tensors ∧ (m.tensors.map Tensor.id).Nodup ∧
      List.Forall₂ NodeEntry.Describes d.nodes m.nodes ∧ m.Consistent := by
  have hempty : (Model.empty.tensors.map Tensor.id).Nodup := List.nodup_nil
  have hbare (tensors : List Tensor) : (Model.mk [] tensors).Consistent :=
    Model.consistent_empty.of_nodes_eq rfl
  unfold toModel
  rw [bind_eq_ok_iff]
  simp only [addTensors_eq_ok_iff hempty]
  constructor
  · rintro ⟨_, ⟨hentries, tensors, htensors, rfl, hids⟩, hadded⟩
    obtain ⟨nodes, hnodes, rfl, hconsistent⟩ := (addNodes_eq_ok_iff (hbare tensors)).mp hadded
    exact ⟨hentries, htensors, hids, hnodes, hconsistent⟩
  · rintro ⟨hentries, htensors, hids, hnodes, hconsistent⟩
    exact ⟨⟨[], m.tensors⟩, ⟨hentries, m.tensors, htensors, rfl, hids⟩,
      (addNodes_eq_ok_iff (hbare m.tensors)).mpr ⟨m.nodes, hnodes, rfl, hconsistent⟩⟩

theorem exists_toModel_iff :
    (∃ m, d.toModel = .ok m) ↔ d.WellFormed ∧ ∀ e ∈ d.tensors, e.Allocatable := by
  simp only [toModel_eq_ok_iff]
  constructor
  · rintro ⟨m, hentries, htensors, hids, hnodes, hconsistent⟩
    rw [consistent_iff hnodes] at hconsistent
    rw [map_eq_of_forall₂ (fun _ _ ht => TensorEntry.Builds.id ht) htensors] at hids
    exact ⟨⟨fun e he => (hentries e he).1, hids, hconsistent.1, hconsistent.2.1, hconsistent.2.2⟩,
      fun e he => (hentries e he).2⟩
  · rintro ⟨⟨htensors, htensorIds, hnodes, hnodeIds, houtputs⟩, hfits⟩
    obtain ⟨tensors, hdescribed⟩ : ∃ tensors, List.Forall₂ TensorEntry.Builds d.tensors tensors := by
      refine exists_forall₂_iff.mpr fun e he => ?_
      obtain ⟨layout, hmem, htext, _⟩ := (htensors e he).layout
      exact ⟨⟨e.id, e.dims, layout, _⟩, rfl, rfl, ⟨hmem, htext⟩, rfl⟩
    obtain ⟨nodes, hread⟩ : ∃ nodes, List.Forall₂ NodeEntry.Describes d.nodes nodes := by
      refine exists_forall₂_iff.mpr fun e he => ?_
      obtain ⟨n, hn, _⟩ := NodeEntry.wellFormed_iff_describes.mp (hnodes e he)
      exact ⟨n, hn⟩
    rw [← map_eq_of_forall₂ (fun _ _ ht => TensorEntry.Builds.id ht) hdescribed] at htensorIds
    exact ⟨⟨nodes, tensors⟩, fun e he => ⟨htensors e he, hfits e he⟩, hdescribed, htensorIds, hread,
      (consistent_iff hread).mpr ⟨hnodes, hnodeIds, houtputs⟩⟩

theorem tensor_of_toModel (h : d.toModel = .ok m) :
    ∀ e ∈ d.tensors, ∃ t, m.tensor e.id = .ok t ∧ e.Builds t := by
  obtain ⟨_, htensors, hids, _, _⟩ := toModel_eq_ok_iff.mp h
  intro e he
  obtain ⟨t, ht, hdescribes⟩ := exists_mem_of_forall₂ htensors e he
  refine ⟨t, Model.tensor_eq_ok_iff.mpr ?_, hdescribes⟩
  exact (Model.find?_key_eq_some_iff hids).mpr ⟨ht, hdescribes.id⟩

end models

/-- A document is accepted iff it is well-formed and its fills can be addressed. Then the model has a node for
each entry, in their order, and a tensor for each entry under its id, as described, if the conversions of half
numbers keep what is promised of them. -/
theorem toModel_accepts_iff [c : HalfConversion] (hc : c.Documented) (d : Document) :
    ((∃ m, d.toModel = .ok m) ↔ d.WellFormed ∧ ∀ e ∈ d.tensors, e.Allocatable) ∧
    ∀ m, d.toModel = .ok m → List.Forall₂ NodeEntry.Describes d.nodes m.nodes ∧
      List.Forall₂ TensorEntry.Describes d.tensors m.tensors ∧
      ∀ e ∈ d.tensors, ∃ t, m.tensor e.id = .ok t ∧ e.Describes t := by
  refine ⟨exists_toModel_iff, fun m h => ?_⟩
  obtain ⟨_, htensors, _, hnodes, _⟩ := toModel_eq_ok_iff.mp h
  refine ⟨hnodes, htensors.imp fun e t ht => ht.describes hc, fun e he => ?_⟩
  obtain ⟨t, ht, hbuilds⟩ := tensor_of_toModel h e he
  exact ⟨t, ht, hbuilds.describes hc⟩

/-- An image and its scaling, by a vector that is filled in half precision. The other vector is given in single
precision: a tenth, a number past all finite ones, the smallest positive one, and a negative pattern that is not a
number. -/
def scaledImage : Document where
  tensors :=
    [{ id := "w", layout := "channel", dims := [3], fill := some ⟨0x3fb999999999999a⟩, dtype := "float16" },
     { id := "b", layout := "channel", dims := [4],
       values := [⟨0x3fb999999999999a⟩, ⟨0x7e37e43c8800759c⟩, ⟨1⟩, ⟨0xfff4000000000001⟩] }]
  nodes :=
    [{ id := "image", kind := "Input", outputs := ["x"]
       outputShapes := [⟨[4, 4, 3], "row_column_channel"⟩] },
     { id := "scaled", kind := "ElementTimes", inputs := ["x"], outputs := ["y"]
       weights := [("weights", ⟨"w", ""⟩)], inputPadding := some ⟨1, ""⟩ }]

theorem toModel_accepts_scaledImage : ∃ m, scaledImage.toModel = .ok m ∧
    List.Forall₂ NodeEntry.Describes scaledImage.nodes m.nodes ∧
    List.Forall₂ TensorEntry.Describes scaledImage.tensors m.tensors ∧
    m.tensors.map Tensor.data = [#[⟨0x3dccc000⟩, ⟨0x3dccc000⟩, ⟨0x3dccc000⟩],
      #[⟨0x3dcccccd⟩, ⟨0x7f800000⟩, ⟨0⟩, ⟨0xffe00000⟩]] := by
  obtain ⟨haccepts, hdescribed⟩ := toModel_accepts_iff HalfConversion.documented_interchange scaledImage
  obtain ⟨m, hm⟩ := haccepts.mpr ⟨by decide, by decide⟩
  obtain ⟨hnodes, htensors, _⟩ := hdescribed m hm
  refine ⟨m, hm, hnodes, htensors, ?_⟩
  obtain ⟨_, hbuilt, _⟩ := toModel_eq_ok_iff.mp hm
  rw [map_eq_of_forall₂ (fun _ _ ht => TensorEntry.Builds.data ht) hbuilt]
  decide +kernel

end Document

end NetLowering
