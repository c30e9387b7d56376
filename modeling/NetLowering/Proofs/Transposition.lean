import Mathlib
import NetLowering.Proofs.Axes

/-! # Data of any rank with its axes in another order

`transpose?` walks through the result by an odometer and reads each element where it lies in the data. For data
that fills its extents this is the permutation of the axes and nothing else (`AxesMoved`): each element goes to
the position of its index as listed in the new order, every position that is read is inside the data, no element
is lost or read twice, and the inverse order leads back (`transposition_moves_axes`). -/

namespace NetLowering

/-- Entry `i` of `ys` is entry `perm[i]` of `xs`. -/
def Relists {β : Type} (perm : List Nat) (xs ys : List β) : Prop :=
  ys.length = perm.length ∧ ∀ i a : Nat, perm[i]? = some a → ys[i]? = xs[a]?

/-- Machine integers as natural numbers, a negative one as zero. -/
def naturals (xs : List Int64) : List Nat := xs.map Int64.toNatClampNeg

/-- The array `moved`, with the extents `outDims`, is `data` with its axes in the order `perm`. -/
structure AxesMoved {α : Type} (perm : List Nat) (data : Array α) (dims : List Int64) (moved : Array α)
    (outDims : List Int64) : Prop where
  extents : Relists perm dims outDims
  /-- An index into the result is the new listing of one index into the data. -/
  source : ∀ j, Within j (naturals outDims) → ∃! k, Within k (naturals dims) ∧ Relists perm k j
  /-- The element at that index is the one that stands there. -/
  element : ∀ j k, Within j (naturals outDims) → Within k (naturals dims) → Relists perm k j →
    ∃ x, data[ravel (naturals dims) k]? = some x ∧ moved[ravel (naturals outDims) j]? = some x
  rearranged : moved.toList.Perm data.toList

/-! ### Lists in another order -/

theorem relists_map_getD_iff {β : Type} {perm : List Nat} {xs ys : List β} (x : β)
    (h : ∀ a ∈ perm, a < xs.length) : Relists perm xs ys ↔ ys = perm.map (xs.getD · x) := by
  have hentry (i a : Nat) (hi : perm[i]? = some a) : (perm.map (xs.getD · x))[i]? = xs[a]? := by
    have ha : a < xs.length := h a (List.mem_of_getElem? hi)
    simp [hi, ha]
  constructor
  · rintro ⟨hlen, hys⟩
    refine List.ext_getElem? fun i => ?_
    cases hi : perm[i]? with
    | some a => rw [hys i a hi, hentry i a hi]
    | none =>
        rw [List.getElem?_eq_none_iff] at hi
        rw [List.getElem?_eq_none (by omega), List.getElem?_eq_none (by simpa using hi)]
  · rintro rfl
    exact ⟨List.length_map _, hentry⟩

section Permuted
variable {dims perm : List Nat} (hperm : perm.Perm (List.range dims.length))
include hperm

theorem relists_iff {xs ys : List Nat} (hxs : xs.length = dims.length) :
    Relists perm xs ys ↔ ys = permute perm xs :=
  relists_map_getD_iff 0 fun _ ha => hxs ▸ axis_lt hperm ha

theorem existsUnique_relists {j : List Nat} (hj : Within j (permute perm dims)) :
    ∃! k, Within k dims ∧ Relists perm k j := by
  obtain ⟨k, hk, rfl⟩ := exists_permute_eq hperm hj
  refine ⟨k, ⟨hk, (relists_iff hperm hk.length_eq).mpr rfl⟩, ?_⟩
  rintro k' ⟨hk', heq⟩
  rw [relists_iff hperm hk'.length_eq] at heq
  rw [← permute_inverseOrder_permute hperm hk'.length_eq, ← heq,
    permute_inverseOrder_permute hperm hk.length_eq]

theorem relists_inverseOrder : Relists perm (inverseOrder perm) (List.range dims.length) := by
  have hinverse := inverseOrder_perm hperm
  rw [relists_iff hperm (by rw [hinverse.length_eq, List.length_range])]
  have hrange : permute (inverseOrder perm) (List.range dims.length) = inverseOrder perm := by
    rw [permute]
    conv_rhs => rw [← List.map_id (inverseOrder perm)]
    refine List.map_congr_left fun a ha => ?_
    have ha : a < dims.length := axis_lt hinverse ha
    simp [ha]
  rw [← hrange, permute_permute_inverseOrder hperm List.length_range]

end Permuted

/-! ### All indices -/

/-- The multi-indices into data of the given extents, in row-major order. -/
def indices (dims : List Nat) : List (List Nat) := (List.range dims.prod).map (unravel dims)

theorem mem_indices {dims index : List Nat} : index ∈ indices dims ↔ Within index dims := by
  rw [indices, List.mem_map]
  constructor
  · rintro ⟨position, hposition, rfl⟩
    exact (ravel_unravel (List.mem_range.mp hposition)).1
  · intro h
    exact ⟨_, List.mem_range.mpr (ravel_lt h), unravel_ravel h⟩

theorem nodup_indices (dims : List Nat) : (indices dims).Nodup := by
  refine List.Nodup.map_on ?_ List.nodup_range
  intro p hp q hq heq
  rw [← (ravel_unravel (List.mem_range.mp hp)).2, heq, (ravel_unravel (List.mem_range.mp hq)).2]

/-- Listing them in another order takes all indices to all indices, each once. -/
theorem indices_permute {dims perm : List Nat} (hperm : perm.Perm (List.range dims.length)) :
    ((indices dims).map (permute perm)).Perm (indices (permute perm dims)) := by
  have hinjective : ∀ j ∈ indices dims, ∀ k ∈ indices dims, permute perm j = permute perm k → j = k := by
    intro j hj k hk heq
    rw [← permute_inverseOrder_permute hperm (mem_indices.mp hj).length_eq, heq,
      permute_inverseOrder_permute hperm (mem_indices.mp hk).length_eq]
  rw [List.perm_ext_iff_of_nodup ((nodup_indices dims).map_on hinjective) (nodup_indices _)]
  intro index
  rw [List.mem_map, mem_indices]
  constructor
  · rintro ⟨source, hsource, rfl⟩
    exact permute_within hperm (mem_indices.mp hsource)
  · intro h
    obtain ⟨source, hsource, heq⟩ := exists_permute_eq hperm h
    exact ⟨source, mem_indices.mpr hsource, heq⟩

namespace Lists
variable {α : Type} {data moved : Array α} {dims perm : List Nat} {value : List Nat → α}

theorem toList_eq (h : Lists data dims value) : data.toList = (indices dims).map value := by
  refine List.ext_getElem? fun position => ?_
  rw [Array.getElem?_toList, indices, List.map_map, List.getElem?_map]
  by_cases hlt : position < dims.prod
  · obtain ⟨hwithin, heq⟩ := ravel_unravel hlt
    rw [List.getElem?_range hlt, Option.map_some, Function.comp_apply, ← h.value _ hwithin, heq]
  · rw [Array.getElem?_eq_none (by rw [h.size]; omega), List.getElem?_eq_none (by simpa using hlt)]
    rfl

theorem toList_perm (h : Lists data dims value) (hperm : perm.Perm (List.range dims.length))
    (hmoved : Lists moved (permute perm dims) fun index => value (permute (inverseOrder perm) index)) :
    moved.toList.Perm data.toList := by
  have hback : ((indices dims).map (permute perm)).map (fun index => value (permute (inverseOrder perm) index))
      = data.toList := by
    rw [h.toList_eq, List.map_map]
    refine List.map_congr_left fun index hindex => ?_
    rw [Function.comp_apply, permute_inverseOrder_permute hperm (mem_indices.mp hindex).length_eq]
  rw [hmoved.toList_eq, ← hback]
  exact ((indices_permute hperm).map _).symm

/-- Moving the axes and then moving them back changes nothing. -/
theorem moved_back (h : Lists data dims value) (hperm : perm.Perm (List.range dims.length))
    (hpos : ∀ d ∈ dims, 0 < d) (hfit : dims.prod < 2 ^ 63)
    (hmoved : Lists moved (permute perm dims) fun index => value (permute (inverseOrder perm) index)) :
    NetLowering.transpose? moved ((permute perm dims).map Int64.ofNat) (inverseOrder perm) = some data := by
  have hinverse : (inverseOrder perm).Perm (List.range (permute perm dims).length) := by
    rw [length_permute hperm]
    exact inverseOrder_perm hperm
  have hpos' : ∀ d ∈ permute perm dims, 0 < d := fun d hd => hpos d ((permute_perm hperm).subset hd)
  have hfit' : (permute perm dims).prod < 2 ^ 63 := by rwa [(permute_perm hperm).prod_eq]
  obtain ⟨back, hback, hlists⟩ := hmoved.transpose? hinverse hpos' hfit' fun _ _ => rfl
  rw [permute_inverseOrder_permute hperm rfl] at hlists
  rw [hback, h.unique hlists]

end Lists

/-! ### Machine extents -/

theorem naturals_map_ofNat {xs : List Nat} (h : ∀ x ∈ xs, x < 2 ^ 63) : naturals (xs.map Int64.ofNat) = xs :=
  toNatClampNeg_map_ofNat h

section Filled
variable {α : Type} {data moved : Array α} {dims perm : List Nat} {value : List Nat → α}
  (hperm : perm.Perm (List.range dims.length)) (hpos : ∀ d ∈ dims, 0 < d) (hfit : dims.prod < 2 ^ 63)
include hperm hpos hfit

theorem naturals_permuteDims : naturals (permuteDims (dims.map Int64.ofNat) perm) = permute perm dims := by
  rw [permuteDims_ofNat]
  exact naturals_map_ofNat fun d hd => extent_lt hpos hfit ((permute_perm hperm).subset hd)

theorem Lists.axesMoved (h : Lists data dims value)
    (hmoved : Lists moved (permute perm dims) fun index => value (permute (inverseOrder perm) index)) :
    AxesMoved perm data (dims.map Int64.ofNat) moved (permuteDims (dims.map Int64.ofNat) perm) := by
  have hdims : naturals (dims.map Int64.ofNat) = dims := naturals_map_ofNat fun _ => extent_lt hpos hfit
  have houtDims := naturals_permuteDims hperm hpos hfit
  constructor
  · exact (relists_map_getD_iff 0 fun a ha => by
      rw [List.length_map]
      exact axis_lt hperm ha).mpr rfl
  · rw [hdims, houtDims]
    exact fun j hj => existsUnique_relists hperm hj
  · rw [hdims, houtDims]
    intro j k hj hk hjk
    rw [relists_iff hperm hk.length_eq] at hjk
    refine ⟨value k, h.value k hk, ?_⟩
    rw [hmoved.value j hj, hjk, permute_inverseOrder_permute hperm hk.length_eq]
  · exact h.toList_perm hperm hmoved

/-- The walk counts the positions of the result. -/
theorem naturals_walkIndex {position : Nat} (h : position < dims.prod) :
    naturals (walkIndex (dims.map Int64.ofNat) perm position) = unravel (permute perm dims) position := by
  rw [walkIndex_ofNat hperm hpos hfit h]
  have hwithin := (ravel_unravel ((permute_perm hperm).prod_eq.symm ▸ h)).1
  refine naturals_map_ofNat fun i hi => ?_
  obtain ⟨a, ha, rfl⟩ := List.mem_iff_getElem.mp hi
  have hlt := hwithin.get ha (hwithin.length_eq ▸ ha)
  exact hlt.trans (extent_lt hpos hfit ((permute_perm hperm).subset (List.getElem_mem _)))

theorem Lists.exists_source (h : Lists data dims value)
    (hmoved : Lists moved (permute perm dims) fun index => value (permute (inverseOrder perm) index))
    {position : Nat} (hposition : position < dims.prod) :
    ∃ source < dims.prod, walkOffset (dims.map Int64.ofNat) perm position = Int64.ofNat source ∧
      moved[position]? = data[source]? := by
  obtain ⟨index, hindex, hindex_eq, hoffset⟩ := exists_walkOffset hperm hpos hfit hposition
  refine ⟨_, ravel_lt hindex, hoffset, ?_⟩
  obtain ⟨hwithin, heq⟩ := ravel_unravel ((permute_perm hperm).prod_eq.symm ▸ hposition)
  have hvalue := hmoved.value _ hwithin
  rw [heq, ← hindex_eq, permute_inverseOrder_permute hperm hindex.length_eq] at hvalue
  rw [hvalue, h.value index hindex]

end Filled

/-- Data of any rank that fills its positive extents, its length being a machine integer, can be listed along its
axes in any order. The result is the data with the axes moved and nothing else. The walk through the result
counts its positions and reads inside the data, and the inverse order gives the extents and the data back. -/
theorem transposition_moves_axes {α : Type} (data : Array α) (dims : List Int64) (perm : List Nat)
    (hpos : ∀ d ∈ dims, 0 < d) (hsize : (naturals dims).prod = data.size) (hfit : data.size < 2 ^ 63)
    (hperm : perm.Perm (List.range dims.length)) :
    ∃ moved, transpose? data dims perm = some moved ∧
      AxesMoved perm data dims moved (permuteDims dims perm) ∧
      (∀ position < data.size,
        Within (naturals (walkIndex dims perm position)) (naturals (permuteDims dims perm)) ∧
        ravel (naturals (permuteDims dims perm)) (naturals (walkIndex dims perm position)) = position ∧
        ∃ source < data.size, walkOffset dims perm position = Int64.ofNat source ∧
          moved[position]? = data[source]?) ∧
      ∃ inverse : List Nat, inverse.Perm (List.range dims.length) ∧
        Relists perm inverse (List.range dims.length) ∧
        permuteDims (permuteDims dims perm) inverse = dims ∧
        transpose? moved (permuteDims dims perm) inverse = some data := by
  -- the extents are natural numbers
  obtain ⟨extents, hnaturals, hextents, rfl⟩ : ∃ extents,
      naturals dims = extents ∧ (∀ d ∈ extents, 0 < d) ∧ dims = extents.map Int64.ofNat :=
    ⟨_, rfl, toNatClampNeg_pos hpos, (map_ofNat_toNatClampNeg hpos).symm⟩
  rw [hnaturals] at hsize
  rw [List.length_map] at hperm ⊢
  rw [← hsize] at hfit ⊢
  -- and the data lists its own values, of which there is one
  have hfirst : 0 < data.size := hsize ▸ List.prod_pos hextents
  have hlists := Lists.of_size hsize.symm data[0]
  obtain ⟨moved, hmoved, hvalues⟩ := hlists.moved hperm hextents hfit
  refine ⟨moved, hmoved, hlists.axesMoved hperm hextents hfit hvalues, fun position hposition => ?_,
    inverseOrder perm, inverseOrder_perm hperm, relists_inverseOrder hperm, ?_, ?_⟩
  · rw [naturals_walkIndex hperm hextents hfit hposition, naturals_permuteDims hperm hextents hfit]
    obtain ⟨hwithin, heq⟩ := ravel_unravel ((permute_perm hperm).prod_eq.symm ▸ hposition)
    exact ⟨hwithin, heq, hlists.exists_source hperm hextents hfit hvalues hposition⟩
  · rw [permuteDims_ofNat, permuteDims_ofNat, permute_inverseOrder_permute hperm rfl]
  · rw [permuteDims_ofNat]
    exact hlists.moved_back hperm hextents hfit hvalues

/-- Two layers of one row and three columns, listed by column, layer and row; and a single value without axes. -/
theorem transposition_moves_layers :
    (∃ moved, transpose? #["a", "b", "c", "d", "e", "f"] [2, 1, 3] [2, 0, 1] = some moved ∧
      moved = #["a", "d", "b", "e", "c", "f"] ∧
      AxesMoved [2, 0, 1] #["a", "b", "c", "d", "e", "f"] [2, 1, 3] moved [3, 2, 1] ∧
      ∃ inverse : List Nat, Relists [2, 0, 1] inverse [0, 1, 2] ∧
        transpose? moved [3, 2, 1] inverse = some #["a", "b", "c", "d", "e", "f"]) ∧
    ∃ moved, transpose? #["a"] [] [] = some moved ∧ AxesMoved [] #["a"] [] moved [] := by
  obtain ⟨moved, hmoved, haxes, _, inverse, _, hinverse, _, hback⟩ :=
    transposition_moves_axes #["a", "b", "c", "d", "e", "f"] [2, 1, 3] [2, 0, 1] (by simp) (by decide)
      (by decide) (by decide)
  obtain ⟨single, hsingle, haxes', _⟩ :=
    transposition_moves_axes #["a"] [] [] (by simp) (by decide) (by decide) (by decide)
  have hread : transpose? #["a", "b", "c", "d", "e", "f"] [2, 1, 3] [2, 0, 1]
      = some #["a", "d", "b", "e", "c", "f"] := by decide
  refine ⟨⟨moved, hmoved, ?_, haxes, inverse, hinverse, hback⟩, single, hsingle, haxes'⟩
  exact Option.some.inj (hmoved.symm.trans hread)

end NetLowering
