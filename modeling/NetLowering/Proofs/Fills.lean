import NetLowering.Proofs.Documents

/-! # Filled tensors

A tensor may be given by one value that is copied as often as its extents describe. The number of copies is a
machine integer that wraps around, and nothing compares it with the extents: the tensor is stored with what is
left of the number of its elements after it wrapped around, or, if no buffer can be that long, reading the
document leaves no result at all (`toModel_fills_exact_iff`). -/

namespace NetLowering

/-! ### Computations without a result -/

/-- The computation leaves no result, not even an error. -/
def Aborts {α : Type} (x : Except Error α) : Prop := ∃ err, x = .error err ∧ err.isAbort = true

section aborts
variable {α β : Type} {x : Except Error α}

@[simp]
theorem not_aborts_ok {a : α} : ¬Aborts (.ok a : Except Error α) := nofun

@[simp]
theorem aborts_error_iff {err : Error} : Aborts (.error err : Except Error α) ↔ err.isAbort = true := by
  simp [Aborts]

@[simp]
theorem aborts_fail_iff {cause : Cause} : Aborts (fail cause : Except Error α) ↔ cause.isAbort = true :=
  aborts_error_iff

@[simp]
theorem aborts_inScope_iff {scope : Scope} : Aborts (inScope scope x) ↔ Aborts x := by
  cases x <;> simp [inScope, Error.isAbort, Error.within]

@[simp]
theorem aborts_bind_iff {f : α → Except Error β} :
    Aborts (x >>= f) ↔ Aborts x ∨ ∃ a, x = .ok a ∧ Aborts (f a) := by
  cases x <;> simp [bind, Except.bind]

@[simp]
theorem aborts_ite_iff {p : Prop} [Decidable p] {y : Except Error α} :
    Aborts (if p then x else y) ↔ p ∧ Aborts x ∨ ¬p ∧ Aborts y := by
  by_cases hp : p <;> simp [hp]

end aborts

/-! ### Lengths that wrap around -/

theorem toInt_ofNat_eq (count : Nat) : (Int64.ofNat count).toInt =
    if count % 2 ^ 64 < 2 ^ 63 then (count % 2 ^ 64 : Int) else count % 2 ^ 64 - 2 ^ 64 := by
  rw [Int64.toInt_ofNat', Int.bmod_def, show Int64.size = 2 ^ 64 from rfl]
  split <;> split <;> omega

theorem toNatClampNeg_ofNat_of_nonneg {count : Nat} (h : 0 ≤ Int64.ofNat count) :
    (Int64.ofNat count).toNatClampNeg = count % 2 ^ 64 := by
  rw [Int64.le_iff_toInt_le, toInt_ofNat_eq, show (0 : Int64).toInt = 0 from rfl] at h
  rw [Int64.toNatClampNeg, toInt_ofNat_eq]
  split at h <;> split <;> omega

/-- A buffer can be as long as what is left of a number that wrapped around, iff that can be addressed. -/
theorem fits_ofNat_iff {count : Nat} :
    0 ≤ Int64.ofNat count ∧ (Int64.ofNat count).toNatClampNeg * 8 ≤ addressable ↔
      count % 2 ^ 64 * 8 ≤ addressable := by
  have haddressable : addressable = 2 ^ 48 := rfl
  constructor
  · rintro ⟨hnonneg, hfits⟩
    rwa [toNatClampNeg_ofNat_of_nonneg hnonneg] at hfits
  · intro hfits
    have hnonneg : 0 ≤ Int64.ofNat count := by
      rw [Int64.le_iff_toInt_le, toInt_ofNat_eq, show (0 : Int64).toInt = 0 from rfl]
      split <;> omega
    exact ⟨hnonneg, by rwa [toNatClampNeg_ofNat_of_nonneg hnonneg]⟩

/-! ### Readers that do not abort -/

@[simp]
theorem Layout.not_aborts_ofText {tag : String} : ¬Aborts (Layout.ofText tag) := by
  unfold ofText
  cases ofText? tag <;> simp [Cause.isAbort]

@[simp]
theorem PaddingScheme.not_aborts_ofText {name : String} : ¬Aborts (PaddingScheme.ofText name) := by
  unfold ofText
  cases ofText? name <;> simp [Cause.isAbort]

@[simp]
theorem OpKind.not_aborts_ofText {name : String} : ¬Aborts (OpKind.ofText name) := by
  unfold ofText
  cases ofText? name <;> simp [Cause.isAbort]

namespace Model

@[simp]
theorem not_aborts_addNode {m : Model} {n : Node} : ¬Aborts (m.addNode n) := by
  unfold addNode
  cases m.takenOutput? n <;> simp [Cause.isAbort]

@[simp]
theorem not_aborts_addTensor [HalfConversion] {m : Model} {id : String} {flat : FlatData} {layout : Layout}
    {dims : List Int64} : ¬Aborts (m.addTensor id flat layout dims) := by
  have hstored : ¬Aborts flat.stored := by cases flat <;> simp [FlatData.stored, Cause.isAbort]
  unfold addTensor Tensor.make
  simp [hstored, Cause.isAbort]

end Model

namespace Document

theorem not_aborts_toNode {e : NodeEntry} : ¬Aborts e.toNode := by
  have hshapes (index : Nat) (entries : List ShapeEntry) : ¬Aborts (toShapes index entries) := by
    induction entries generalizing index with
    | nil => simp [toShapes]
    | cons s rest ih => simp [toShapes, ih]
  have hweights (entries : List (String × WeightEntry)) : ¬Aborts (toWeights entries) := by
    induction entries with
    | nil => simp [toWeights]
    | cons w rest ih => simp [toWeights, WeightEntry.toRef, ih]
  have hpadding : ¬Aborts (toPadding e.inputPadding) := by
    cases e.inputPadding <;> simp [toPadding, PaddingEntry.toPadding]
  unfold NodeEntry.toNode
  simp [hshapes, hweights, hpadding]

theorem not_aborts_addNodes {m : Model} {index : Nat} {entries : List NodeEntry} :
    ¬Aborts (addNodes m index entries) := by
  induction entries generalizing m index with
  | nil => simp [addNodes]
  | cons e rest ih => simp [addNodes, NodeEntry.addTo, not_aborts_toNode, ih]

/-! ### Entries -/

namespace TensorEntry

variable {e : TensorEntry}

/-- The number of elements that the extents of an entry describe. -/
def volume (e : TensorEntry) : Nat := (e.dims.map Int64.toNatClampNeg).prod

theorem allocatable_iff (hpositive : ∀ d ∈ e.dims, 0 < d) :
    e.Allocatable ↔ (e.fill.isSome → e.volume % 2 ^ 64 * 8 ≤ addressable) := by
  rw [Allocatable, extentProduct_of_pos hpositive]
  exact imp_congr_right fun _ => fits_ofNat_iff

/-- The entry asks for a buffer that cannot be addressed, after all that is checked before. -/
structure Overflows (e : TensorEntry) : Prop where
  layout : e.layout ∈ Layout.tagged.map Layout.text
  positive : ∀ d ∈ e.dims, 0 < d
  filled : e.fill.isSome
  once : e.values = []
  size : addressable < e.volume % 2 ^ 64 * 8

theorem aborts_flatValues_iff : Aborts e.flatValues ↔ e.values = [] ∧ ¬e.Allocatable := by
  unfold flatValues Allocatable
  cases e.fill with
  | none => simp
  | some x => simp [fillBuffer, Cause.isAbort, imp_iff_not_or, and_comm]

theorem aborts_addTo_iff [HalfConversion] {m : Model} : Aborts (e.addTo m) ↔ e.Overflows := by
  have hdata (values : Array Double) : ¬Aborts (e.flatData values) := by
    unfold flatData
    split <;> simp [Cause.isAbort]
  have hreads : Aborts (e.addTo m) ↔ (∃ layout, Layout.Named e.layout layout) ∧ (∀ d ∈ e.dims, 0 < d) ∧
      Aborts e.flatValues := by
    unfold addTo
    simp [hdata, Cause.isAbort, Layout.ofText_eq_ok_iff]
  rw [hreads, Layout.exists_named_iff, aborts_flatValues_iff]
  constructor
  · rintro ⟨hlayout, hpositive, honce, hfits⟩
    rw [allocatable_iff hpositive, Classical.not_imp, Nat.not_le] at hfits
    exact ⟨hlayout, hpositive, hfits.1, honce, hfits.2⟩
  · rintro ⟨hlayout, hpositive, hfilled, honce, hsize⟩
    refine ⟨hlayout, hpositive, honce, ?_⟩
    rw [allocatable_iff hpositive, Classical.not_imp, Nat.not_le]
    exact ⟨hfilled, hsize⟩

end TensorEntry

theorem aborts_addTensors_iff [HalfConversion] {m : Model} {index : Nat} {entries : List TensorEntry} :
    Aborts (addTensors m index entries) ↔ ∃ pre e post, entries = pre ++ e :: post ∧
      (∃ m', addTensors m index pre = .ok m') ∧ e.Overflows := by
  induction entries generalizing m index with
  | nil => simp [addTensors]
  | cons e rest ih =>
      simp only [addTensors, aborts_bind_iff, aborts_inScope_iff, TensorEntry.aborts_addTo_iff,
        inScope_eq_ok_iff, ih]
      constructor
      · rintro (hover | ⟨m₁, hadd, pre, e', post, rfl, ⟨m', hpre⟩, hover⟩)
        · exact ⟨[], e, rest, rfl, ⟨m, rfl⟩, hover⟩
        · refine ⟨e :: pre, e', post, rfl, ⟨m', ?_⟩, hover⟩
          rw [addTensors, hadd]
          exact hpre
      · rintro ⟨pre, e', post, hsplit, ⟨m', hpre⟩, hover⟩
        cases pre with
        | nil =>
            cases hsplit
            exact .inl hover
        | cons first pre =>
            cases hsplit
            rw [addTensors, bind_eq_ok_iff] at hpre
            obtain ⟨m₁, hadd, hpre⟩ := hpre
            exact .inr ⟨m₁, inScope_eq_ok_iff.mp hadd, pre, e', post, rfl, ⟨m', hpre⟩, hover⟩

/-! ### Documents -/

section documents
variable [HalfConversion]

/-- Every fill is read into as many copies as the extents describe, or the document is refused. -/
structure FillsExactly (d : Document) : Prop where
  total : ¬Aborts d.toModel
  exact : ∀ m, d.toModel = .ok m → ∀ e ∈ d.tensors, ∀ x, e.fill = some x →
    ∃ t, m.tensor e.id = .ok t ∧ t.data = Array.replicate e.volume (e.stored x)

variable {d : Document} {m : Model}

theorem toModel_tensors {name : String} {entries : List TensorEntry} :
    (Document.mk name entries []).toModel = addTensors .empty 0 entries := by
  unfold toModel
  cases addTensors .empty 0 entries <;> simp [bind, Except.bind, addNodes]

theorem aborts_toModel_iff : Aborts d.toModel ↔ ∃ pre e post, d.tensors = pre ++ e :: post ∧
    (∃ m, (Document.mk d.name pre []).toModel = .ok m) ∧ e.Overflows := by
  simp only [toModel_tensors, ← aborts_addTensors_iff]
  unfold toModel
  simp [not_aborts_addNodes]

theorem filled_of_toModel (h : d.toModel = .ok m) {e : TensorEntry} (he : e ∈ d.tensors) {x : Double}
    (hfill : e.fill = some x) : e.volume % 2 ^ 64 * 8 ≤ addressable ∧
      ∃ t, m.tensor e.id = .ok t ∧ t.dims = e.dims ∧
        t.data = Array.replicate (e.volume % 2 ^ 64) (e.stored x) := by
  obtain ⟨hentries, _⟩ := toModel_eq_ok_iff.mp h
  obtain ⟨hwell, hfits⟩ := hentries e he
  obtain ⟨t, ht, hbuilds⟩ := tensor_of_toModel h e he
  have hsome : e.fill.isSome := by simp [hfill]
  refine ⟨(TensorEntry.allocatable_iff hwell.positive).mp hfits hsome, t, ht, hbuilds.dims, ?_⟩
  obtain ⟨hnonneg, _⟩ := hfits hsome
  rw [extentProduct_of_pos hwell.positive] at hnonneg
  have hgiven : e.given = List.replicate (e.volume % 2 ^ 64) x := by
    rw [TensorEntry.given, hfill, extentProduct_of_pos hwell.positive]
    exact congrArg (List.replicate · x) (toNatClampNeg_ofNat_of_nonneg hnonneg)
  rw [hbuilds.data, hgiven, List.map_replicate, List.toArray_replicate]

/-- The fills of a document that describe few enough elements are exact. -/
theorem fillsExactly_of_addressable
    (h : ∀ e ∈ d.tensors, e.fill.isSome → e.volume * 8 ≤ addressable) : d.FillsExactly := by
  have haddressable : addressable = 2 ^ 48 := rfl
  have hmod (e : TensorEntry) (he : e ∈ d.tensors) (hfill : e.fill.isSome) : e.volume % 2 ^ 64 = e.volume := by
    have hsmall := h e he hfill
    omega
  constructor
  · rw [aborts_toModel_iff]
    rintro ⟨pre, e, post, hsplit, _, hover⟩
    have he : e ∈ d.tensors := by rw [hsplit]; simp
    have hsize := hover.size
    rw [hmod e he hover.filled] at hsize
    exact absurd (h e he hover.filled) (Nat.not_le.mpr hsize)
  · intro m hm e he x hfill
    obtain ⟨_, t, ht, _, hdata⟩ := filled_of_toModel hm he hfill
    rw [hmod e he (by simp [hfill])] at hdata
    exact ⟨t, ht, hdata⟩

/-- Among well-formed entries the first that does not fit makes the whole document abort. -/
theorem WellFormed.allocatable (hwell : d.WellFormed) (h : ¬Aborts d.toModel) :
    ∀ e ∈ d.tensors, e.Allocatable := by
  refine forall_mem_of_before fun pre e post hsplit hpre => ?_
  by_contra hfits
  have he : e ∈ d.tensors := by rw [hsplit]; simp
  obtain ⟨⟨layout, hmem, htext, _⟩, hpositive, honce, _, _⟩ := hwell.tensors e he
  rw [TensorEntry.allocatable_iff hpositive, Classical.not_imp, Nat.not_le] at hfits
  have hbefore : (Document.mk d.name pre []).WellFormed := by
    have hids := hwell.tensor_ids
    rw [hsplit, List.map_append] at hids
    refine ⟨fun e' he' => hwell.tensors e' ?_, hids.of_append_left, nofun, List.nodup_nil, .nil⟩
    rw [hsplit]
    exact List.mem_append_left _ he'
  refine h (aborts_toModel_iff.mpr ⟨pre, e, post, hsplit, exists_toModel_iff.mpr ⟨hbefore, hpre⟩, ?_⟩)
  exact ⟨List.mem_map.mpr ⟨layout, hmem, htext⟩, hpositive, hfits.1, honce hfits.1, hfits.2⟩

theorem WellFormed.addressable_of_fillsExactly (hwell : d.WellFormed) (h : d.FillsExactly) :
    ∀ e ∈ d.tensors, e.fill.isSome → e.volume * 8 ≤ addressable := by
  intro e he hsome
  obtain ⟨x, hfill⟩ := Option.isSome_iff_exists.mp hsome
  obtain ⟨m, hm⟩ := exists_toModel_iff.mpr ⟨hwell, hwell.allocatable h.total⟩
  obtain ⟨t, ht, hexact⟩ := h.exact m hm e he x hfill
  obtain ⟨hfits, t', ht', _, hdata⟩ := filled_of_toModel hm he hfill
  cases ht.symm.trans ht'
  have hsize := congrArg Array.size (hexact.symm.trans hdata)
  rw [Array.size_replicate, Array.size_replicate] at hsize
  rwa [hsize]

end documents

/-- Fills are exact in every document whose filled tensors have an addressable number of elements, and a
well-formed document is exact only then. A document aborts at the first entry that overflows, after entries that
are accepted; otherwise each fill is copied as often as is left of the number of elements. -/
theorem toModel_fills_exact_iff [HalfConversion] (d : Document) :
    ((∀ e ∈ d.tensors, e.fill.isSome → e.volume * 8 ≤ addressable) → d.FillsExactly) ∧
    (d.WellFormed → (d.FillsExactly ↔ ∀ e ∈ d.tensors, e.fill.isSome → e.volume * 8 ≤ addressable)) ∧
    (Aborts d.toModel ↔ ∃ pre e post, d.tensors = pre ++ e :: post ∧
      (∃ m, (Document.mk d.name pre []).toModel = .ok m) ∧ e.Overflows) ∧
    ∀ m, d.toModel = .ok m → ∀ e ∈ d.tensors, ∀ x, e.fill = some x →
      ∃ t, m.tensor e.id = .ok t ∧ t.dims = e.dims ∧
        t.data = Array.replicate (e.volume % 2 ^ 64) (e.stored x) := by
  refine ⟨fillsExactly_of_addressable, fun hwell => ?_, aborts_toModel_iff, fun m hm e he x hfill => ?_⟩
  · exact ⟨hwell.addressable_of_fillsExactly, fillsExactly_of_addressable⟩
  · exact (filled_of_toModel hm he hfill).2

/-- A matrix with the given extents, filled with one. -/
def filledMatrix (rows columns : Int64) : Document where
  tensors := [{ id := "w", layout := "row_column", dims := [rows, columns], fill := some ⟨0x3ff0000000000000⟩ }]

theorem toModel_fills_wrapped :
    (filledMatrix 2 3).FillsExactly ∧
    (∃ m t, (filledMatrix 4 4611686018427387905).toModel = .ok m ∧ m.tensor "w" = .ok t ∧
      t.dims = [4, 4611686018427387905] ∧ t.data = Array.replicate 4 ⟨0x3f800000⟩) ∧
    ¬(filledMatrix 4 4611686018427387905).FillsExactly ∧
    Aborts (filledMatrix 4294967296 2147483648).toModel := by
  obtain ⟨hsmall, _⟩ := toModel_fills_exact_iff (filledMatrix 2 3)
  obtain ⟨_, hexact, _, hstored⟩ := toModel_fills_exact_iff (filledMatrix 4 4611686018427387905)
  obtain ⟨_, _, haborts, _⟩ := toModel_fills_exact_iff (filledMatrix 4294967296 2147483648)
  have hwell : (filledMatrix 4 4611686018427387905).WellFormed := by decide
  have hhuge : (filledMatrix 4294967296 2147483648).WellFormed := by decide
  refine ⟨hsmall (by decide), ?_, ?_, haborts.mpr ?_⟩
  · obtain ⟨m, hm⟩ := exists_toModel_iff.mpr ⟨hwell, by decide⟩
    obtain ⟨t, ht, hdims, hdata⟩ := hstored m hm _ List.mem_cons_self _ rfl
    refine ⟨m, t, hm, ht, hdims, ?_⟩
    rw [hdata]
    decide +kernel
  · rw [hexact hwell]
    decide
  · have hpositive := (hhuge.tensors _ List.mem_cons_self).positive
    exact ⟨[], _, [], rfl, ⟨_, rfl⟩, by decide, hpositive, rfl, rfl, by decide⟩

end Document

end NetLowering
