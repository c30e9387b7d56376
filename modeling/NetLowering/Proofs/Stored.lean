import Mathlib
import NetLowering.Number.Interchange
import NetLowering.Proofs.Additions
import NetLowering.Proofs.Canonical

/-! # Stored tensors

A tensor is stored only if its extents are positive and their product is the number of its values
(`Tensor.Checked`). The product is a machine integer, though, and wraps around: a tensor holds as many values
as its extents describe iff these can be counted (`size_eq_volume_iff`). Then every layout of the right rank
reads inside the data (`Checked.canonicalAs`); otherwise a layout may read past the end. -/

namespace NetLowering

theorem exists_transpose {data : Array Single} {dims perm : List Nat} (hsize : data.size = dims.prod)
    (hperm : perm.Perm (List.range dims.length)) (hpos : ∀ d ∈ dims, 0 < d) (hfit : dims.prod < 2 ^ 63) :
    ∃ moved, transpose? data (dims.map Int64.ofNat) perm = some moved ∧ moved.size = data.size := by
  -- the data lists its own values, whatever they are
  obtain ⟨moved, hmoved, _⟩ := (Lists.of_size hsize default).moved hperm hpos hfit
  exact ⟨moved, hmoved, size_of_transpose hmoved⟩

namespace Tensor

/-- What is checked of a tensor before it is stored. -/
structure Checked (t : Tensor) : Prop where
  rank : t.layout.rank? = some t.dims.length
  positive : ∀ d ∈ t.dims, 0 < d
  size : extentProduct t.dims = Int64.ofNat t.data.size

theorem checked_of_make [HalfConversion] {id : String} {flat : FlatData} {layout : Layout} {dims : List Int64}
    {t : Tensor} (h : Tensor.make id flat layout dims = .ok t) : t.Checked := by
  obtain ⟨data, _, hrank, hpositive, hsize, rfl⟩ := Model.make_eq_ok_iff.mp h
  exact ⟨hrank, hpositive, hsize⟩

/-- The number of values that the extents of a tensor describe. -/
def volume (t : Tensor) : Nat := (t.dims.map Int64.toNatClampNeg).prod

namespace Checked

variable {t : Tensor} (h : t.Checked)
include h

theorem dims_eq : t.dims = (t.dims.map Int64.toNatClampNeg).map Int64.ofNat :=
  (map_ofNat_toNatClampNeg h.positive).symm

theorem extents_pos : ∀ d ∈ t.dims.map Int64.toNatClampNeg, 0 < d :=
  toNatClampNeg_pos h.positive

theorem ofNat_size : Int64.ofNat t.data.size = Int64.ofNat t.volume := by
  rw [← h.size, volume, extentProduct_of_pos h.positive]

/-- The data fills the extents iff the product of these did not wrap around. -/
theorem size_eq_volume_iff (hlen : t.data.size < 2 ^ 63) :
    t.data.size = t.volume ↔ t.volume < 2 ^ 63 := by
  constructor
  · intro heq
    rwa [← heq]
  · intro hfit
    have heq := congrArg Int64.toNatClampNeg h.ofNat_size
    rwa [Int64.toNatClampNeg_ofNat_of_lt hlen, Int64.toNatClampNeg_ofNat_of_lt hfit] at heq

theorem canonicalAs (hlen : t.data.size < 2 ^ 63) (hsize : t.data.size = t.volume) {layout : Layout}
    (hrank : layout.rank? = some t.dims.length) :
    ∃ a, t.canonicalAs layout = .ok a ∧ a.data.size = t.data.size := by
  unfold Tensor.canonicalAs
  rw [if_neg (not_not_intro hrank)]
  cases hlayout : layout.permutation with
  | none => exact ⟨_, rfl, rfl⟩
  | some perm =>
      have hperm : perm.Perm (List.range (t.dims.map Int64.toNatClampNeg).length) := by
        rw [List.length_map]
        exact Layout.permutation_perm hlayout hrank
      obtain ⟨moved, hmoved, hsize'⟩ := exists_transpose hsize hperm h.extents_pos
        ((h.size_eq_volume_iff hlen).mp hsize)
      rw [← h.dims_eq] at hmoved
      dsimp only
      rw [hmoved]
      exact ⟨_, rfl, hsize'⟩

end Checked

end Tensor

theorem fillBuffer_eq_ok_iff {α : Type} {width : Nat} {length : Int64} {x : α} {buffer : Array α} :
    fillBuffer width length x = .ok buffer ↔ 0 ≤ length ∧ length.toNatClampNeg * width ≤ addressable ∧
      buffer = Array.replicate length.toNatClampNeg x := by
  unfold fillBuffer
  rw [← Int64.not_lt, ← Nat.not_lt, ← and_assoc, ← not_or]
  split
  · simp_all [fail]
  · simp_all [eq_comm]

/-! ### Tensors of a model -/

namespace Model

variable {m : Model} {t : Tensor}

theorem Reachable.checked (hm : m.Reachable) : ∀ t ∈ m.tensors, t.Checked := by
  induction hm with
  | empty => nofun
  | addTensor _ hadd ih =>
      obtain ⟨_, t, ht, rfl⟩ := addTensor_eq_ok_iff.mp hadd
      intro s hs
      rcases List.mem_append.mp hs with hs | hs
      · exact ih s hs
      · rw [List.mem_singleton.mp hs]
        exact Tensor.checked_of_make ht
  | addNode _ hadd ih =>
      obtain ⟨_, _, _, _, rfl⟩ := addNode_eq_ok_iff.mp hadd
      exact ih

end Model

/-- A tensor of a model, its length being a machine integer, holds as many values as its extents describe iff
their product did not wrap around. Such a tensor can be read in canonical order, under its id or as a weight,
in its own layout or any other of its rank. -/
theorem stored_tensor_filled_iff (m : Model) (t : Tensor) (hm : m.Reachable) (ht : t ∈ m.tensors)
    (hlen : t.data.size < 2 ^ 63) :
    (t.data.size = t.volume ↔ t.volume < 2 ^ 63) ∧
    (t.data.size = t.volume →
      (∀ layout : Layout, layout.rank? = some t.dims.length →
        ∃ a, t.canonicalAs layout = .ok a ∧ a.data.size = t.data.size) ∧
      (∃ a, m.canonicalTensor t.id = .ok a) ∧
      ∀ n role, m.weightTensor n role = .ok t →
        (Model.weightLayout n role t).rank? = some t.dims.length → ∃ a, m.canonicalWeight n role = .ok a) := by
  have hchecked := hm.checked t ht
  refine ⟨hchecked.size_eq_volume_iff hlen, fun hsize => ⟨fun layout hrank => ?_, ?_, ?_⟩⟩
  · exact hchecked.canonicalAs hlen hsize hrank
  · obtain ⟨a, ha, _⟩ := hchecked.canonicalAs hlen hsize hchecked.rank
    have hfind : m.tensor t.id = .ok t :=
      Model.tensor_eq_ok_iff.mpr ((Model.find?_key_eq_some_iff hm.tensor_ids_nodup).mpr ⟨ht, rfl⟩)
    refine ⟨a, ?_⟩
    rw [Model.canonicalTensor, hfind]
    exact ha
  · intro n role hweight hrank
    obtain ⟨a, ha, _⟩ := hchecked.canonicalAs hlen hsize hrank
    refine ⟨a, ?_⟩
    rw [Model.canonicalWeight, hweight]
    exact congrArg (inScope _) ha

/-- A matrix of six values, and one of four whose extents multiply to four only after they wrapped around. -/
def twoMatrices : Model where
  tensors :=
    [⟨"filled", [2, 3], .rowColumn, #[⟨1⟩, ⟨2⟩, ⟨3⟩, ⟨4⟩, ⟨5⟩, ⟨6⟩]⟩,
     ⟨"wrapped", [4, 4611686018427387905], .rowColumn, #[⟨1⟩, ⟨2⟩, ⟨3⟩, ⟨4⟩]⟩]

theorem stored_tensor_wrapped : twoMatrices.Reachable ∧
    (∃ t ∈ twoMatrices.tensors, t.id = "wrapped" ∧ t.data.size ≠ t.volume ∧
      t.canonical = fail .outsideData) ∧
    ∃ t ∈ twoMatrices.tensors, t.id = "filled" ∧ t.data.size = t.volume ∧
      (∀ layout : Layout, layout.rank? = some 2 → ∃ a, t.canonicalAs layout = .ok a) ∧
      ∃ a, twoMatrices.canonicalTensor "filled" = .ok a := by
  have hfirst : Model.empty.addTensor "filled" (.singles #[⟨1⟩, ⟨2⟩, ⟨3⟩, ⟨4⟩, ⟨5⟩, ⟨6⟩]) .rowColumn
      [2, 3] = .ok ⟨[], [⟨"filled", [2, 3], .rowColumn, #[⟨1⟩, ⟨2⟩, ⟨3⟩, ⟨4⟩, ⟨5⟩, ⟨6⟩]⟩]⟩ := by rfl
  have hsecond : (Model.mk [] [⟨"filled", [2, 3], .rowColumn, #[⟨1⟩, ⟨2⟩, ⟨3⟩, ⟨4⟩, ⟨5⟩, ⟨6⟩]⟩]).addTensor
      "wrapped" (.singles #[⟨1⟩, ⟨2⟩, ⟨3⟩, ⟨4⟩]) .rowColumn [4, 4611686018427387905] =
        .ok twoMatrices := by rfl
  have hreach : twoMatrices.Reachable := .addTensor (.addTensor .empty hfirst) hsecond
  obtain ⟨hwrapped, _⟩ := stored_tensor_filled_iff twoMatrices _ hreach (List.mem_of_getElem? (i := 1) rfl)
    (by decide)
  obtain ⟨hfilled, hread⟩ := stored_tensor_filled_iff twoMatrices _ hreach (List.mem_of_getElem? (i := 0) rfl)
    (by decide)
  obtain ⟨hlayouts, hcanonical, _⟩ := hread (hfilled.mpr (by decide))
  refine ⟨hreach, ⟨_, List.mem_of_getElem? (i := 1) rfl, rfl, ?_, by rfl⟩,
    _, List.mem_of_getElem? (i := 0) rfl, rfl, hfilled.mpr (by decide), ?_, hcanonical⟩
  · exact mt hwrapped.mp (by decide)
  · intro layout hrank
    obtain ⟨a, ha, _⟩ := hlayouts layout hrank
    exact ⟨a, ha⟩

end NetLowering
